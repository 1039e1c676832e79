import Scriptlet.Proofs.Parser.Stretch
import Scriptlet.Proofs.Run.Blame
import Scriptlet.Proofs.Session.Pieces

/-!
# `Scriptlet.Proofs.Session.Blame`: run-time errors point into sources

A function that was declared by one source may fail in the run of another one. The token that
the error points at then stands in the source of the declaration, and shows its line there.

`Session.accepted` are the sources that a session ran in the course of some steps, and
`Fault.Fits` says which tokens a fault may point at. `runtime_errors_at_tokens`: in a session
that knows no functions of a host, every run-time error points at a token of one of the
sources that were accepted so far, and its fault fits the token.
-/

set_option autoImplicit false

namespace Scriptlet

open Grammar

/-! ### Faults and tokens -/

/-- The token ends a stretch of the tokens that spells a call. -/
def Token.ClosesCall (tokens : List Token) (t : Token) : Prop :=
  t.kind = .mark .rightParen ∧
    ∃ us f args, us ++ [t] <:+: tokens ∧ Derives .call (us ++ [t]) (.call f t args)

/-- The fault is one that may be found at this token. -/
def Fault.Fits (tokens : List Token) (t : Token) : Fault → Prop
  | .operandMustBeNumber => t.kind = .mark .minus
  | .operandsMustBeNumbers =>
    t.kind ∈ [.mark .minus, .mark .star, .mark .slash, .mark .greater, .mark .greaterEqual,
      .mark .less, .mark .lessEqual]
  | .operandsMustBeNumbersOrStrings => t.kind = .mark .plus
  | .undefinedVariable name => t.kind = .identifier ∧ t.name = name
  | .arityMismatch expected got => t.ClosesCall tokens ∧ expected ≠ got
  | .notCallable | .conversion _ _ | .invalidArgument _ | .io _ | .clock _ =>
    t.ClosesCall tokens

/-- The operators between two numbers are all but those that take other values too. -/
theorem operators_of_numbers {r : Rung} {kind : Kind} (hr : r.isLogical = false)
    (h : kind ∈ r.operators)
    (hkind : kind ∉ [.mark .equalEqual, .mark .bangEqual, .mark .plus]) :
    kind ∈ [.mark .minus, .mark .star, .mark .slash, .mark .greater, .mark .greaterEqual,
      .mark .less, .mark .lessEqual] := by
  cases r with
  | disjunction | conjunction => cases hr
  | assignment | unary | call | primary => cases h
  | equality | comparison | term | factor =>
      simp only [Rung.operators, List.mem_cons, List.not_mem_nil, or_false] at h hkind ⊢
      grind

/-- A fault of a call fits the token that closes the call. -/
theorem Fault.OfCall.fits {tokens : List Token} {t : Token} {fault : Fault} (h : fault.OfCall)
    (ht : t.ClosesCall tokens) : fault.Fits tokens t := by
  cases fault with
  | arityMismatch expected got => exact ⟨ht, h⟩
  | notCallable | conversion | invalidArgument | io | clock => exact ht
  | _ => exact h.elim

/-- An error that blames an expression with a stretch of the tokens points at one of them. -/
theorem RuntimeError.Blames.fits {tokens : List Token} {e : RuntimeError} {x : Expr}
    (h : e.Blames x) (hx : Accounts tokens x) :
    e.token ∈ tokens ∧ e.fault.Fits tokens e.token := by
  obtain rfl | ⟨r, us, hus, hx⟩ := hx
  -- A constant is never to blame.
  · cases h
  cases h with
  | operand hop =>
      obtain ⟨hmem, hkind⟩ := hx.of_unary
      refine ⟨hus.subset hmem, ?_⟩
      simpa [Fault.Fits, hop] using hkind
  | operands hop =>
      obtain ⟨hmem, r, hr, hkind⟩ := hx.of_binary
      exact ⟨hus.subset hmem, operators_of_numbers hr hkind hop⟩
  | sum hop => exact ⟨hus.subset hx.of_binary.1, hop⟩
  | get =>
      obtain ⟨rfl, hkind⟩ := hx.tokens_of_get
      exact ⟨hus.subset List.mem_cons_self, hkind, rfl⟩
  | set =>
      obtain ⟨hmem, hkind⟩ := hx.of_set
      exact ⟨hus.subset hmem, hkind, rfl⟩
  | call hfault =>
      obtain ⟨hkind, vs, rfl, hx⟩ := hx.of_call
      exact ⟨hus.subset (by simp), hfault.fits ⟨hkind, vs, _, _, hus, hx⟩⟩

/-! ### Sources that were run -/

/-- If the verdict is a failure, then with an error as `P` says. -/
def Verdict.FailsAs (P : RuntimeError → Prop) : Verdict → Prop
  | .failed e => P e
  | _ => True

/-- The tokens of a source without errors spell its program. -/
theorem Analysis.program_spelled {source : String} {l : Lexicon}
    (h : (ofSource source l).errors = []) :
    Grammar.Program (scan source l).tokens (ofSource source l).program := by
  obtain ⟨hscanned, -⟩ := List.append_eq_nil_iff.1 h
  obtain ⟨ts, l', hreads⟩ := Scan.reads_of_errors_nil hscanned
  have htokens : (scan source l).tokens = _ :=
    congrArg Scan.tokens (Scan.ofScanner_reads_nil hreads)
  have hparse := parse_eq h
  rw [htokens] at hparse ⊢
  exact program_of_parse rfl hreads.inner hparse

namespace Session

/-- Whether the step leaves the session with built-in operations only. -/
def Step.isPlain : Step → Bool
  | .native _ _ (.host _) => false
  | _ => true

/-- The source that the session runs in this step, with the lexicon it is scanned with. A
source with errors is not run. -/
def accepted? (s : Session) (step : Step) : Option (String × Lexicon) :=
  (step.source?.filter fun source => (Analysis.ofSource source s.lexicon).errors.isEmpty).map
    fun source => (source, s.lexicon)

/-- The sources that the session runs in these steps, each with the lexicon it is scanned
with. -/
def accepted (s : Session) : List (Nat × Step) → List (String × Lexicon)
  | [] => []
  | (n, step) :: steps => (s.accepted? step).toList ++ accepted (s.perform n step).2 steps

/-- The expression stands in one of the sources. -/
def Stands (sources : List (String × Lexicon)) (x : Expr) : Prop :=
  ∃ taken ∈ sources, Accounts (scan taken.1 taken.2).tokens x

/-- An expression that stands in some sources stands in more. -/
theorem Stands.mono {sources more : List (String × Lexicon)} (h : sources ⊆ more) {x : Expr}
    (hx : Stands sources x) : Stands more x := by
  obtain ⟨taken, htaken, hx⟩ := hx
  exact ⟨taken, h htaken, hx⟩

/-- The functions that the session knows were declared in the sources, but for the built-in
ones. -/
structure Remembers (sources : List (String × Lexicon)) (s : Session) : Prop where
  machine : s.machine.From (Stands sources)

namespace Remembers

variable {sources : List (String × Lexicon)} {s : Session}

/-- Only the scopes of the machine matter. -/
theorem of_eq (h : s.Remembers sources) {s₁ : Session}
    (hscopes : s₁.machine.scopes = s.machine.scopes) : s₁.Remembers sources :=
  ⟨h.machine.of_eq hscopes⟩

/-- Taking out output and journal loses no function. -/
theorem emptied (h : s.Remembers sources) : s.emptied.Remembers sources := h.of_eq rfl

/-- A session that remembers sources remembers more. -/
theorem mono (h : s.Remembers sources) {more : List (String × Lexicon)}
    (hmore : sources ⊆ more) : s.Remembers more :=
  ⟨h.machine.mono fun _ => Stands.mono hmore⟩

/-- A native function of the session itself has no body that could be blamed. -/
theorem defineNative (h : s.Remembers sources) (name : String) (arity : Nat) {op : Native}
    (hop : ∀ function, op ≠ .host function) : (s.defineNative name arity op).Remembers sources := by
  have hvalue : Value.From (Stands sources)
      (.callable ⟨s.machine.identities, .native name arity op⟩) := hop
  exact ⟨Scopes.Holds.define (K := fun _ => True) h.machine s.machine.globals trivial hvalue⟩

end Remembers

/-- A new session has built-in functions only. -/
theorem remembers_start (lexicon : Lexicon) (input : Reader) (output : Sink) (generator : Generator)
    (clock : Clock) : (start lexicon input output generator clock).Remembers [] := by
  refine start_of_builtins lexicon input output generator clock ?_ fun s builtin hbuiltin hs => ?_
  · exact ⟨Machine.from_blank _ _ _ _ _⟩
  · refine hs.defineNative _ _ fun p hop => ?_
    simp only [Native.builtins, List.mem_cons, List.not_mem_nil, or_false] at hbuiltin
    rcases hbuiltin with rfl | rfl | rfl | rfl | rfl | rfl | rfl <;> cases hop

/-- What a step comes to for a session that remembers some sources: it remembers the source of
the step too, if that was run, and an error blames one of all these sources. -/
structure Traced (sources : List (String × Lexicon)) (result : Verdict × Session) : Prop where
  remembers : result.2.Remembers sources
  error : result.1.FailsAs (RuntimeError.At (Stands sources))

/-- A source without errors is run. Its own expressions stand in the source itself, and the
others where they stood before. -/
theorem traced_accepted {sources : List (String × Lexicon)} {s : Session}
    (h : s.Remembers sources) (n : Nat) {source : String}
    (herrors : (Analysis.ofSource source s.lexicon).errors = []) :
    Traced (sources ++ [(source, s.lexicon)]) (s.eval n source) := by
  have hprogram := Analysis.program_spelled herrors
  have hanalysed : (s.analysed (Analysis.ofSource source s.lexicon)).Remembers
      (sources ++ [(source, s.lexicon)]) :=
    (h.mono (List.subset_append_left _ _)).of_eq rfl
  rw [eval_accepted n herrors]
  generalize Analysis.ofSource source s.lexicon = a at hprogram hanalysed
  -- The expressions of the program stand in this source, on stretches of its tokens.
  have hstands : ∀ stmt ∈ a.program, ∀ x : Expr, x.In stmt →
      Stands (sources ++ [(source, s.lexicon)]) x := fun stmt hstmt x hx =>
    ⟨(source, s.lexicon), by simp, hprogram.accounts hstmt hx⟩
  have hkeeps := hanalysed.machine.runProgram n hstands
  have hblames := runProgram_blames n hstands hanalysed.machine
  cases hrun : runProgram n a.program (s.analysed a).machine with
  | done _ m =>
      rw [hrun] at hkeeps
      exact ⟨⟨hkeeps.of_eq rfl⟩, trivial⟩
  | failed error m =>
      rw [hrun] at hkeeps hblames
      exact ⟨⟨hkeeps⟩, hblames⟩
  | starved => exact ⟨hanalysed, trivial⟩

/-- A source is accepted if no error is found in it. -/
theorem accepted?_eval (s : Session) (source : String) : s.accepted? (.eval source) =
    if (Analysis.ofSource source s.lexicon).errors = [] then some (source, s.lexicon)
    else none := by
  unfold accepted?
  simp only [Step.source?, Option.filter_some, List.isEmpty_iff]
  split <;> rfl

/-- A source that is not run blames nothing, and nothing is added to what is remembered. -/
theorem traced_eval {sources : List (String × Lexicon)} {s : Session}
    (h : s.Remembers sources) (n : Nat) (source : String) :
    Traced (sources ++ (s.accepted? (.eval source)).toList) (s.eval n source) := by
  rw [accepted?_eval]
  split
  case isTrue herrors => exact traced_accepted h n herrors
  case isFalse herrors =>
    rw [eval_rejected n herrors, Option.toList_none, List.append_nil]
    exact ⟨h.of_eq rfl, trivial⟩

/-- A step that runs no source. -/
theorem traced_of_accepted?_none {sources : List (String × Lexicon)} {s : Session} {step : Step}
    (hstep : s.accepted? step = none) {result : Verdict × Session}
    (h : Traced sources result) : Traced (sources ++ (s.accepted? step).toList) result := by
  rwa [hstep, Option.toList_none, List.append_nil]

/-- A step that is plain leaves the session with sources to blame, and an error blames one of
them. -/
theorem traced_act {sources : List (String × Lexicon)} {s : Session}
    (h : s.Remembers sources) (n : Nat) {step : Step} (hstep : step.isPlain = true) :
    Traced (sources ++ (s.accepted? step).toList) (s.act n step) := by
  cases step with
  | eval source => exact traced_eval h n source
  | reader reader =>
      show Traced _ (s.evalReader n reader)
      unfold evalReader
      -- What the reader delivers is run as it would be without the reader.
      cases hread : reader.readAll with
      | ok source =>
          have hsource : s.accepted? (.reader reader) = s.accepted? (.eval source) := by
            simp only [accepted?, Step.source?, hread, Except.toOption]
          rw [hsource]
          exact traced_eval h n source
      | error words =>
          refine traced_of_accepted?_none ?_ ⟨h, trivial⟩
          simp only [accepted?, Step.source?, hread, Except.toOption]
          rfl
  | seed seed => exact traced_of_accepted?_none rfl ⟨h.of_eq rfl, trivial⟩
  | native name arity op =>
      refine traced_of_accepted?_none rfl ⟨h.defineNative name arity ?_, trivial⟩
      rintro p rfl
      cases hstep
  | debug => exact traced_of_accepted?_none rfl ⟨h, trivial⟩

/-- After some steps a session remembers the sources that were run in them. -/
theorem remembers_after {sources : List (String × Lexicon)} {s : Session}
    (h : s.Remembers sources) {steps : List (Nat × Step)}
    (hsteps : ∀ asked ∈ steps, asked.2.isPlain = true) :
    (s.after steps).Remembers (sources ++ s.accepted steps) := by
  -- On the steps; the source of each step is remembered in all later ones.
  induction steps generalizing s sources with
  | nil =>
      rw [accepted, List.append_nil]
      exact h
  | cons asked steps ih =>
      obtain ⟨n, step⟩ := asked
      have hstep := (traced_act h n (hsteps (n, step) List.mem_cons_self)).remembers
      have hlater := ih (s := (s.perform n step).2) hstep.emptied
        fun asked hasked => hsteps asked (List.mem_cons_of_mem _ hasked)
      rw [List.append_assoc] at hlater
      exact hlater

/-- The sources of some steps and of further steps. -/
theorem accepted_append (s : Session) (steps more : List (Nat × Step)) :
    s.accepted (steps ++ more) = s.accepted steps ++ (s.after steps).accepted more := by
  induction steps generalizing s with
  | nil => rfl
  | cons asked steps ih =>
      rw [List.cons_append, accepted, ih, accepted, after, List.append_assoc]

end Session

/-- **Every run-time error points at the right token.** A session with built-in operations only
took any steps, of which some may have failed. If it fails now, then at a token of a source
that was accepted in one of the steps before or is accepted now, and the token is the one that
the scan of this source gave, with its line there. The kind of the token fits the fault: an
operator for an operand of the wrong type, the name itself for a name that is not bound, and
for all faults of calls the parenthesis that closes the call. -/
theorem runtime_errors_at_tokens (tag : Nat) (input : Reader) (output : Sink)
    (generator : Generator) (clock : Clock) {steps : List (Nat × Session.Step)} {n : Nat}
    {step : Session.Step} (hplain : ∀ asked ∈ steps ++ [(n, step)], asked.2.isPlain = true)
    {e : RuntimeError} :
    let s := (Session.start (.new tag) input output generator clock).emptied
    ((s.after steps).act n step).1 = .failed e →
      ∃ taken ∈ s.accepted (steps ++ [(n, step)]),
        let tokens := (scan taken.1 taken.2).tokens
        e.token ∈ tokens ∧ e.fault.Fits tokens e.token := by
  intro s hfailed
  have hs : s.Remembers [] :=
    (Session.remembers_start (.new tag) input output generator clock).emptied
  have hafter := Session.remembers_after hs fun asked hasked =>
    hplain asked (List.mem_append_left _ hasked)
  have hnow := Session.traced_act hafter n (hplain (n, step) (by simp))
  have herror := hnow.error
  rw [hfailed] at herror
  -- The expression that is blamed stands in one of the sources, and so does its token.
  obtain ⟨x, ⟨taken, htaken, hx⟩, hblames⟩ := herror
  refine ⟨taken, ?_, hblames.fits hx⟩
  rw [Session.accepted_append]
  simpa [Session.accepted] using htaken

/-- A function is declared, a source with an error is rejected, and then the function is called
and fails: at the minus sign on the second line of the declaration, although the call stands on
the first line of its own source. -/
theorem runtime_errors_at_tokens_later_call :
    let declared : String := "fun f() \x7b\n  return 1 - nil; \x7d"
    let steps : List (Nat × Session.Step) := [(20, .eval declared), (20, .eval "f(;")]
    ∃ e, ((newSession.after steps).act 20 (.eval "f();")).1 = .failed e ∧ e.token.line = 2 ∧
      e.fault = .operandsMustBeNumbers ∧
      ∃ taken ∈ newSession.accepted (steps ++ [(20, .eval "f();")]),
        let tokens := (scan taken.1 taken.2).tokens
        e.token ∈ tokens ∧ e.fault.Fits tokens e.token := by
  intro declared steps
  -- Which error it is, and on which line, is found by evaluation.
  have hfails : (match ((newSession.after steps).act 20 (.eval "f();")).1 with
      | .failed e => e.token.line == 2 && e.fault == .operandsMustBeNumbers
      | _ => false) = true := by decide +kernel
  cases hact : ((newSession.after steps).act 20 (.eval "f();")).1 with
  | failed e =>
      rw [hact] at hfails
      simp only [Bool.and_eq_true, beq_iff_eq] at hfails
      refine ⟨e, rfl, hfails.1, hfails.2, ?_⟩
      exact runtime_errors_at_tokens 0 _ _ _ _ (by decide +kernel) hact
  | _ =>
      rw [hact] at hfails
      cases hfails

end Scriptlet
