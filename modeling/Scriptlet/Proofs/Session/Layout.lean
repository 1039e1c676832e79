import Scriptlet.Proofs.Session.Rejection
import Scriptlet.Run.SplitMix

/-!
# `Scriptlet.Proofs.Session.Layout`: layout does not show

Two sources with the same words in the same order differ in their layout only: in blanks, line
ends and comments. Their tokens say the same (`Token.wording`) and stand on other lines. The
parser makes the same of both, but for the lines, and so does everything behind it.

The lines that may be different are named. Where an error, a tree or a function of the one
session has the line of a token of the first source, the other session has the line of the token
at the same place in the second source (`LinesBeside`). All other lines are the same.

* `Analysis.beside_ofSource`: what is made of two sources with the same words.
* `Session.Reachable.runsAlike`: how a session runs two such sources.
* `layout_unobservable`: no session shows the layout of its sources, now or later.
-/

set_option autoImplicit false

namespace Scriptlet

/-- The lines of two tokens that stand at the same place in their lists. -/
def LinesBeside (ts ts' : List Token) (line line' : Nat) : Prop :=
  ∃ pair ∈ ts.zip ts', pair.1.line = line ∧ pair.2.line = line'

/-- Lists that say the same match, token by token. -/
theorem matches_of_wording {ts ts' : List Token}
    (h : ts.map Token.wording = ts'.map Token.wording) :
    List.Forall₂ (Token.Matches (LinesBeside ts ts')) ts ts' := by
  rw [← List.forall₂_eq_eq_eq, List.forall₂_map_left_iff, List.forall₂_map_right_iff,
    List.forall₂_iff_zip] at h
  rw [List.forall₂_iff_zip]
  refine ⟨h.1, fun {t t'} hpair => ⟨h.2 hpair, (t, t'), hpair, rfl, rfl⟩⟩

/-- The analyses of two sources whose tokens stand beside each other. -/
structure Analysis.Beside (Line : Nat → Nat → Prop) (a a' : Analysis) : Prop where
  sound : a.lexicon.Sound
  sound' : a'.lexicon.Sound
  program : Stmt.AllAlike (.between Line sound sound') a.program a'.program
  errors : List.Forall₂ (StaticError.Alike (.between Line sound sound')) a.errors a'.errors
  tokenCount : a.tokenCount = a'.tokenCount

namespace Analysis

/-- Sources without lexical errors that have the same words are analysed side by side. -/
theorem beside_ofSource {l : Lexicon} (hl : l.Sound) {source source' : String}
    (hscan : (scan source l).errors = []) (hscan' : (scan source' l).errors = [])
    (hwords : (scan source l).tokens.map Token.wording =
      (scan source' l).tokens.map Token.wording) :
    Beside (LinesBeside (scan source l).tokens (scan source' l).tokens) (ofSource source l)
      (ofSource source' l) := by
  have hknown := scan_known source hl
  have hknown' := scan_known source' hl
  have htokens := tokens_alike_of_matches hknown.sound hknown'.sound
    (matches_of_wording hwords) hknown.names hknown'.names
  obtain ⟨hprogram, hparse⟩ := parse_alike htokens
  refine ⟨hknown.sound, hknown'.sound, hprogram, ?_, htokens.length_eq⟩
  -- All errors come from the parser.
  show List.Forall₂ _ ((scan source l).errors ++ _) ((scan source' l).errors ++ _)
  rw [hscan, hscan']
  exact hparse

/-- What is noted down about a source without errors. -/
theorem records_of_errors_nil {a : Analysis} (h : a.errors = []) :
    a.records = [.scanned a.tokenCount, .parsed a.program.length 0] := by
  obtain ⟨hscan, hparse⟩ := List.append_eq_nil_iff.1 h
  simp [records, h, hscan, hparse]

/-- Of two such sources both have errors, or none has. -/
theorem Beside.errors_nil_iff {Line : Nat → Nat → Prop} {a a' : Analysis}
    (h : Beside Line a a') : a.errors = [] ↔ a'.errors = [] := by
  rw [← List.length_eq_zero_iff, ← List.length_eq_zero_iff, h.errors.length_eq]

end Analysis

namespace Session

variable {s : Session} {Line : Nat → Nat → Prop} {source source' : String}

/-- A session rejects both of two sources, and neither leaves a trace. -/
structure RejectsBoth (s : Session) (n : Nat) (source source' : String) : Prop where
  verdict : (s.perform n (.eval source)).1.verdict =
    .rejected (Analysis.ofSource source s.lexicon).errors
  verdict' : (s.perform n (.eval source')).1.verdict =
    .rejected (Analysis.ofSource source' s.lexicon).errors
  traceless : s.Traceless (s.perform n (.eval source))
  traceless' : s.Traceless (s.perform n (.eval source'))

/-- A session runs two sources alike: it gives the same answer, its machine is the same
afterwards, and it gives the same answers from then on, all but for corresponding lines. -/
structure RunsAlike (s : Session) (Line : Nat → Nat → Prop) (n : Nat) (source source' : String) :
    Prop where
  answer : (s.perform n (.eval source)).1.Alike Line (s.perform n (.eval source')).1
  session : (s.perform n (.eval source)).2.Alike Line (s.perform n (.eval source')).2
  later : ∀ steps, List.Forall₂ (Answer.Alike Line)
    ((s.perform n (.eval source)).2.answers steps)
    ((s.perform n (.eval source')).2.answers steps)

/-- A source with errors leaves no trace. -/
theorem Reachable.traceless_rejected (hs : s.Reachable) (n : Nat)
    (h : (Analysis.ofSource source s.lexicon).errors ≠ []) :
    (s.perform n (.eval source)).1.verdict =
        .rejected (Analysis.ofSource source s.lexicon).errors ∧
      s.Traceless (s.perform n (.eval source)) := by
  have hact : s.act n (.eval source) = _ := eval_rejected n h
  unfold Session.perform
  rw [hact]
  exact ⟨rfl, hs.traceless_analysed rfl rfl⟩

/-- Sources that are analysed side by side and have no errors run alike. -/
theorem Reachable.runsAlike (hs : s.Reachable) (n : Nat)
    (hanalyses : Analysis.Beside Line (.ofSource source s.lexicon) (.ofSource source' s.lexicon))
    (h : (Analysis.ofSource source s.lexicon).errors = []) :
    s.RunsAlike (fun line line' => line = line' ∨ Line line line') n source source' := by
  have h' := hanalyses.errors_nil_iff.1 h
  have hknown := scan_known source hs.alike.sound
  have hknown' := scan_known source' hs.alike.sound
  -- The session is alike to itself in all lines, so it is if more lines correspond.
  have hself : s.Alike (fun line line' => line = line' ∨ Line line line') s :=
    ⟨hs.alike.sound, hs.alike.sound',
      hs.alike.machine.mono (Likeness.between_eq_le (fun _ => .inl rfl) _ _)⟩
  have hrecords : (Analysis.ofSource source s.lexicon).records =
      (Analysis.ofSource source' s.lexicon).records := by
    rw [Analysis.records_of_errors_nil h, Analysis.records_of_errors_nil h',
      hanalyses.tokenCount, hanalyses.program.length_eq]
  have hanalysed := hself.analysed hknown.sound hknown'.sound hknown.grows hknown'.grows hrecords
  have hle : (Likeness.between Line hanalyses.sound hanalyses.sound').Le
      (.between (fun line line' => line = line' ∨ Line line line') hknown.sound hknown'.sound) :=
    Likeness.between_mono (fun _ _ => .inr) _ _
  obtain ⟨hshown, hafter⟩ := Alike.evalAccepted n h h' hanalysed (hanalyses.program.mono hle)
  have hshown : (s.act n (.eval source)).1.shown.Alike _ (s.act n (.eval source')).1.shown :=
    hshown
  obtain ⟨hanswer, hsession⟩ := Alike.performed hshown hafter rfl
  exact ⟨hanswer, hsession, hsession.answers_alike fun _ => .inl rfl⟩

end Session

/-- **Layout never changes behaviour.** Take a session that was reached in any way, and two
sources whose scans report no errors and whose tokens agree in kind, spelling and constant. Either
both are rejected, with errors that agree in number, order, kind and location and stand on the
lines of corresponding tokens, and neither leaves a trace. Or both have a program, the same one but
for the lines of corresponding tokens. Then running the one and running the other has the same
verdict, where a run-time error agrees in its kind and its token but for the line, the same output,
and the same machine but for the lines in function declarations. From then on, too, all answers
are the same but for these lines. -/
theorem layout_unobservable {s : Session} (hs : s.Reachable) {a b : String}
    (ha : (scan a s.lexicon).errors = []) (hb : (scan b s.lexicon).errors = [])
    (hwords : (scan a s.lexicon).tokens.map Token.wording =
      (scan b s.lexicon).tokens.map Token.wording) :
    let x := Analysis.ofSource a s.lexicon
    let y := Analysis.ofSource b s.lexicon
    let Line := LinesBeside (scan a s.lexicon).tokens (scan b s.lexicon).tokens
    x.Beside Line y ∧
      ((x.errors ≠ [] ∧ y.errors ≠ [] ∧ ∀ n, s.RejectsBoth n a b) ∨
        (x.errors = [] ∧ y.errors = [] ∧
          ∀ n, s.RunsAlike (fun line line' => line = line' ∨ Line line line') n a b)) := by
  intro x y Line
  have hanalyses : x.Beside Line y := Analysis.beside_ofSource hs.alike.sound ha hb hwords
  refine ⟨hanalyses, ?_⟩
  -- The second source has an error exactly if the first one has.
  by_cases hx : x.errors = []
  · exact .inr ⟨hx, hanalyses.errors_nil_iff.1 hx, fun n => hs.runsAlike n hanalyses hx⟩
  · have hy : y.errors ≠ [] := fun hnil => hx (hanalyses.errors_nil_iff.2 hnil)
    refine .inl ⟨hx, hy, fun n => ?_⟩
    obtain ⟨hverdict, htraceless⟩ := hs.traceless_rejected n hx
    obtain ⟨hverdict', htraceless'⟩ := hs.traceless_rejected n hy
    exact ⟨hverdict, hverdict', htraceless, htraceless'⟩

-- With this, wordings can be compared.
deriving instance DecidableEq for Literal

/-- A function on one line. -/
def onOneLine : String := "fun f() \x7b return -nil; \x7d"

/-- The same function on four lines, one of them a comment. -/
def onFourLines : String := "fun f() \x7b\n  // fails\n  return -nil;\n\x7d"

/-- The line of a run-time error. -/
def Shown.line? : Shown → Option Nat
  | .failed _ _ _ line _ => some line
  | _ => none

/-- A function that fails when it is called later. In the one session the error is on the first
line of the source, in the other one on its third line, and both times it is at the same token. -/
theorem layout_unobservable_function :
    let s := (Session.start (.new 0) (.ofBytes [] none) (.empty none)
      (.splitMix 0) (.steady (.ok 0))).emptied
    let later := [(20, Session.Step.eval "f();")]
    let answers := (s.perform 20 (.eval onOneLine)).2.answers later
    let answers' := (s.perform 20 (.eval onFourLines)).2.answers later
    answers.map (·.verdict.line?) = [some 1] ∧ answers'.map (·.verdict.line?) = [some 3] ∧
      List.Forall₂ (Session.Answer.Alike fun line line' => line = line' ∨
        LinesBeside (scan onOneLine s.lexicon).tokens (scan onFourLines s.lexicon).tokens line
          line') answers answers' := by
  intro s later answers answers'
  have hs : s.Reachable := .start 0 _ _ _ _
  have hlayout := layout_unobservable hs (a := onOneLine) (b := onFourLines)
    (by decide +kernel) (by decide +kernel) (by decide +kernel)
  refine ⟨by decide +kernel, by decide +kernel, ?_⟩
  -- The first source has no errors, so both are run.
  rcases hlayout.2 with ⟨herrors, -⟩ | ⟨-, -, hruns⟩
  · exact absurd (by decide +kernel) herrors
  · exact (hruns 20).later later

end Scriptlet
