import Scriptlet.Proofs.Lexical.Join
import Scriptlet.Proofs.Parser.Join
import Scriptlet.Proofs.Run.Pieces
import Scriptlet.Proofs.Session.Alike
import Scriptlet.Run.SplitMix

/-!
# `Scriptlet.Proofs.Session.Pieces`: sources in pieces

A session that runs one source and then another one ends like a session that runs both at once,
joined by a line end. All three stages have their part in this. The scanner comes to the line
end as to the end of the source (`scan_join`), the parser does not look past the end of the
first program (`parse_append`), and the run of the whole is the run of the first part with the
run of the second part behind it (`execAll_append`).

What is different is what stands between the two parts: symbols that are issued for the end of
the first source, and records in the journal. And in the whole the second source is further
down. So the sessions are not the same, but alike (`Session.SameEnd`).

* `Analysis.joined_ofSource`: what is analysed is the first source, and the second one behind
  empty lines.
* `Session.running_join`, `Session.running_join_of_stopped`: how the whole runs.
* `eval_in_pieces`: the statement for all sources and all sessions that can be reached.
-/

set_option autoImplicit false

namespace Scriptlet

/-! ### The analysis of two parts -/

/-- Tokens that correspond further down correspond, if their lines do. -/
theorem Token.alike_of_later {Line : Nat → Nat → Prop} {k : Nat}
    (hline : ∀ line, Line line (line + k)) {l l' : Lexicon} {h : l.Sound} {h' : l'.Sound}
    {t t' : Token} (ht : (t.later k).Alike (.between Eq h h') t') :
    t.Alike (.between Line h h') t' where
  kind := ht.kind
  name := ht.name
  literal := ht.literal
  line := by
    have hdown : t.line + k = t'.line := ht.line
    rw [← hdown]
    exact hline t.line
  symbol := ht.symbol

/-- Moving a scan down leaves its symbols alone. -/
theorem Scan.Known.later {l : Lexicon} {x : Scan} (h : x.Known l) (k : Nat) :
    (x.later k).Known l := by
  refine ⟨h.sound, h.grows, fun t ht hkind => ?_⟩
  obtain ⟨above, habove, rfl⟩ := List.mem_map.1 ht
  exact h.names above habove hkind

namespace Analysis

/-- The tokens of a source without errors are parsed as its program. -/
theorem parse_eq {source : String} {l : Lexicon} (h : (ofSource source l).errors = []) :
    parse (scan source l).tokens = ⟨(ofSource source l).program, []⟩ := by
  obtain ⟨-, hparse⟩ := List.append_eq_nil_iff.1 h
  exact congrArg (Parse.mk _) hparse

/-- What a source and the same one behind empty lines have in common, in two lexicons. -/
theorem tokens_emptyLines (Line : Nat → Nat → Prop) {k : Nat}
    (hline : ∀ line, Line line (line + k)) (source : String) {l l' : Lexicon} (h : l.Sound)
    (h' : l'.Sound) :
    List.Forall₂ (Token.Alike (.between Line (scan_known source h).sound
        (scan_known (emptyLines k ++ source) h').sound))
      (scan source l).tokens (scan (emptyLines k ++ source) l').tokens := by
  have hknown := (scan_known source h).later k
  have hknown' := scan_known (emptyLines k ++ source) h'
  have hbare := (scan_bare (emptyLines k ++ source) h h').1
  rw [scan_emptyLines k source l] at hbare
  have htokens := tokens_alike hknown.sound hknown'.sound hbare hknown.names hknown'.names
  exact (List.forall₂_map_left_iff.1 htokens).imp fun _ _ => Token.alike_of_later hline

/-- Empty lines in front of a source bring no errors into it. -/
theorem errors_emptyLines (k : Nat) {source : String} {l l' : Lexicon} (h : l.Sound)
    (h' : l'.Sound) (herrors : (ofSource source l).errors = []) :
    (ofSource (emptyLines k ++ source) l').errors = [] := by
  obtain ⟨hscanned, hparsed⟩ := List.append_eq_nil_iff.1 herrors
  have htokens := tokens_emptyLines (fun line line' => line' = line + k) (fun _ => rfl) source h h'
  have hparse := (parse_alike htokens).2
  have hscan := (scan_bare (emptyLines k ++ source) h h').2
  rw [scan_emptyLines k source l] at hscan
  refine List.append_eq_nil_iff.2 ⟨?_, ?_⟩
  · show (scan (emptyLines k ++ source) l').errors = []
    have hscanned : (scan source l).errors = [] := hscanned
    rw [← hscan, Scan.later, hscanned, List.map_nil]
  · have hparsed : (parse (scan source l).tokens).errors = [] := hparsed
    rwa [hparsed, List.forall₂_nil_left_iff] at hparse

/-- The analysis `whole` of a source that begins with one of which `first` is the analysis. The
other part has the program `second`. -/
structure Joined (l : Lexicon) (first whole : Analysis) (second : Program) : Prop where
  sound : whole.lexicon.Sound
  grows : l.Grows whole.lexicon
  errors : whole.errors = []
  program : whole.program = first.program ++ second
  /-- All names of the first part have their symbols in the whole. -/
  known : ∀ {l' : Lexicon} (h' : l'.Sound), first.lexicon.Grows l' →
    Stmt.AllAlike (.between Eq h' sound) first.program first.program

/-- Sources without errors that are joined by a line end have no errors. The first one is
analysed as it is alone, and the second one as it is behind as many empty lines. -/
theorem joined_ofSource {a b : String} {l : Lexicon} (hl : l.Sound)
    (ha : (ofSource a l).errors = []) (hb : (ofSource b l).errors = []) :
    let pushed := emptyLines (1 + Piece.newlines a.toList) ++ b
    ∃ la, la.Sound ∧ (ofSource pushed la).lexicon.Grows (ofSource (a ++ "\n" ++ b) l).lexicon ∧
      Joined l (ofSource a l) (ofSource (a ++ "\n" ++ b) l) (ofSource pushed la).program := by
  intro pushed
  obtain ⟨hscanned, -⟩ := List.append_eq_nil_iff.1 ha
  obtain ⟨ts, final, la, hla, hts, hfinal, htokens, hscan⟩ := scan_join hl hscanned
  -- The second source has no errors, whatever symbols were issued and however far down it is.
  have hpushed : (ofSource pushed la).errors = [] := errors_emptyLines _ hl hla hb
  obtain ⟨hscanned', -⟩ := List.append_eq_nil_iff.1 hpushed
  obtain ⟨us, final', -, -, hus, hfinal', htokens', -⟩ := scan_join hla hscanned'
  have hwhole : scan (a ++ "\n" ++ b) l = Scan.behind ts (scan pushed la) := hscan b
  have hparse : parse (scan (a ++ "\n" ++ b) l).tokens =
      ⟨(ofSource a l).program ++ (ofSource pushed la).program, []⟩ := by
    have hp := parse_eq ha
    have hq := parse_eq hpushed
    rw [htokens] at hp
    rw [htokens'] at hq
    rw [hwhole]
    show parse (ts ++ (scan pushed la).tokens) = _
    rw [htokens']
    exact parse_append hfinal hts hp hfinal' hus hq
  have hknown := scan_known a hl
  have hknown' := scan_known (a ++ "\n" ++ b) hl
  have hgrows : (scan pushed la).lexicon.Grows (scan (a ++ "\n" ++ b) l).lexicon := by
    rw [hwhole]
    exact .refl _
  have herrors : (scan (a ++ "\n" ++ b) l).errors = [] := by
    rw [hwhole]
    exact hscanned'
  refine ⟨la, hla, hgrows, hknown'.sound, hknown'.grows, ?_, ?_, ?_⟩
  · exact List.append_eq_nil_iff.2 ⟨herrors, congrArg Parse.errors hparse⟩
  · exact congrArg Parse.program hparse
  · intro l' h' hgrows
    -- The tokens of the first source are among those of the whole.
    have hnames : ∀ t ∈ (scan a l).tokens, t.kind = .identifier →
        t.lexeme ∈ (scan (a ++ "\n" ++ b) l).lexicon.interned := by
      intro t ht hkind
      rw [htokens, List.mem_append, List.mem_singleton] at ht
      rcases ht with ht | rfl
      · refine hknown'.names t ?_ hkind
        rw [hwhole]
        exact List.mem_append_left _ ht
      · cases hfinal.symm.trans hkind
    have hself := tokens_alike h' hknown'.sound rfl
      (fun t ht hkind => hgrows.interned (hknown.names t ht hkind)) hnames
    exact (parse_alike hself).1

end Analysis

/-! ### How a source ends -/

/-- Machines that are alike are so with any one journal in both. -/
theorem Machine.Alike.withJournal {ρ : Likeness} {m m' : Machine} (h : m.Alike ρ m')
    (journal : Array Record) : (m.withJournal journal).Alike ρ (m'.withJournal journal) := by
  obtain ⟨scopes, hscopes, rfl⟩ := h
  exact ⟨scopes, hscopes, rfl⟩

namespace Session

/-- What the session makes of a source before it runs it. -/
abbrev analysis (s : Session) (source : String) : Analysis := .ofSource source s.lexicon

/-- How the statements of a source end. -/
def running (s : Session) (n : Nat) (source : String) : Outcome Flow :=
  execAll n (s.analysis source).program (s.analysed (s.analysis source)).machine

/-- What a source comes to whose statements have ended. A value given back at the top is
dropped. -/
def concluded (s : Session) (a : Analysis) : Outcome Flow → Verdict × Session
  | .done .normal m => (.ok, ⟨a.lexicon, m.note (.ran a.program.length)⟩)
  | .done (.returned v) m =>
    (.ok, ⟨a.lexicon, (m.note (.discarding v.text)).note (.ran a.program.length)⟩)
  | .failed error m => (.failed error, ⟨a.lexicon, m⟩)
  | .starved => (.starved, s.analysed a)

/-- A source without errors is concluded by what its run comes to. -/
theorem eval_concluded {s : Session} {source : String} (n : Nat)
    (h : (s.analysis source).errors = []) :
    s.eval n source = s.concluded (s.analysis source) (s.running n source) := by
  rw [eval_accepted n h]
  unfold runProgram running
  cases execAll n _ _ with
  | done flow m => cases flow <;> rfl
  | failed | starved => rfl

/-- More steps do not change how statements end. -/
theorem running_of_le {s : Session} {source : String} {n k : Nat} (h : n ≤ k)
    (hrun : s.running n source ≠ .starved) : s.running k source = s.running n source :=
  ((Outcome.below_of_le (fun n => execAll_below n _ _) h).resolve_left hrun).symm

/-- Two sources come to the same: what is seen of the verdicts is the same, but for lines, and
so is everything in the sessions but the journal, which no program reads. So the sessions
answer in the same way whatever they are asked later. Where the supply was used up there is
nothing to say. -/
structure SameEnd (Line : Nat → Nat → Prop) (r r' : Verdict × Session) : Prop where
  shown : r.1.shown.Alike Line r'.1.shown
  session : r.1 ≠ .starved →
    Alike Line ⟨r.2.lexicon, r.2.machine.withJournal r'.2.machine.journal⟩ r'.2
  answers : r.1 ≠ .starved → ∀ steps,
    List.Forall₂ (Answer.Alike Line) (r.2.emptied.answers steps) (r'.2.emptied.answers steps)

variable {Line : Nat → Nat → Prop} {s s' : Session}

/-- Sessions that are alike but for their journals, and verdicts that show the same, have the same
end. -/
theorem SameEnd.of_alike (hline : ∀ line, Line line line) {v v' : Verdict}
    (hshown : v.shown.Alike Line v'.shown)
    (h : Alike Line ⟨s.lexicon, s.machine.withJournal s'.machine.journal⟩ s') :
    SameEnd Line (v, s) (v', s') where
  shown := hshown
  session _ := h
  answers _ := h.emptied.answers_alike hline

/-- Statements that end alike, in whatever journals, come to the same. -/
theorem sameEnd_concluded (hline : ∀ line, Line line line) {a a' : Analysis}
    {h : a.lexicon.Sound} {h' : a'.lexicon.Sound} {x x' : Outcome Flow}
    (hx : x.Alike (.between Line h h') (Flow.Alike (.between Line h h')) x')
    (journal journal' : Array Record) :
    SameEnd Line (s.concluded a (x.mapMachine (·.withJournal journal)))
      (s'.concluded a' (x'.mapMachine (·.withJournal journal'))) := by
  cases hx with
  | done hflow hm =>
      obtain ⟨scopes, hscopes, rfl⟩ := hm
      cases hflow with
      | normal | returned =>
          exact .of_alike hline (.same _) ⟨h, h', scopes, hscopes, rfl⟩
  | failed he hm =>
      obtain ⟨scopes, hscopes, rfl⟩ := hm
      exact .of_alike hline (Shown.alike_failed he) ⟨h, h', scopes, hscopes, rfl⟩
  | starved => exact ⟨.same _, absurd rfl, absurd rfl⟩

/-! ### The first part and the rest -/

section Parts

variable {a whole : String} {second : Program}

/-- With the records of the whole in the journal, the first part runs as it does alone. -/
theorem execAll_first (s : Session) (a whole : String) (n : Nat) :
    ∃ journal, execAll n (s.analysis a).program (s.analysed (s.analysis whole)).machine =
      (s.running n a).mapMachine (·.withJournal journal) :=
  execAll_journal n (s.analysis a).program (s.analysed (s.analysis a)).machine
    (s.analysed (s.analysis whole)).machine.journal

/-- Where the first part ends normally, the whole goes on with the second part. -/
theorem running_join (h : Analysis.Joined s.lexicon (s.analysis a) (s.analysis whole) second)
    {n k : Nat} {m : Machine} (hrun : s.running n a = .done .normal m)
    (hsupply : n ≤ (s.analysis a).program.length + k) :
    ∃ journal, s.running ((s.analysis a).program.length + k) whole =
      (execAll k second m).mapMachine (·.withJournal journal) := by
  obtain ⟨journal, hfirst⟩ := s.execAll_first a whole ((s.analysis a).program.length + k)
  rw [running_of_le hsupply (by rw [hrun]; nofun), hrun] at hfirst
  have hwhole : s.running ((s.analysis a).program.length + k) whole =
      execAll k second (m.withJournal journal) := by
    unfold running
    rw [h.program, execAll_append, hfirst]
    rfl
  rw [hwhole]
  exact execAll_journal k second m journal

/-- Where the first part stops, the whole ends there. -/
theorem running_join_of_stopped
    (h : Analysis.Joined s.lexicon (s.analysis a) (s.analysis whole) second) {n k : Nat}
    (hstop : (s.running n a).Stopped) (hsupply : n ≤ k) :
    ∃ journal, s.running k whole = (s.running n a).mapMachine (·.withJournal journal) := by
  obtain ⟨journal, hfirst⟩ := s.execAll_first a whole k
  rw [running_of_le hsupply hstop.ne_starved] at hfirst
  refine ⟨journal, ?_⟩
  show execAll k (s.analysis whole).program _ = _
  rw [h.program, Outcome.Stopped.append (hfirst ▸ hstop.mapMachine _), hfirst]

/-- All names that the first part leaves in the scopes have their symbols in the whole, and in
every lexicon that has grown from its own. -/
theorem running_alike (hs : s.Reachable)
    (h : Analysis.Joined s.lexicon (s.analysis a) (s.analysis whole) second) (n : Nat)
    {l : Lexicon} (hl : l.Sound) (hgrows : (s.analysis a).lexicon.Grows l) :
    (s.running n a).Alike (.between Eq hl h.sound) (Flow.Alike (.between Eq hl h.sound))
      (s.running n a) := by
  have hknown := scan_known a hs.alike.sound
  have hle : (Likeness.between Eq hs.alike.sound hs.alike.sound').Le (.between Eq hl h.sound) :=
    Likeness.between_le (hknown.grows.trans hgrows) h.grows
  have hmachine := (hs.alike.machine.mono hle).withJournal
    (s.analysed (s.analysis a)).machine.journal
  exact execAll_alike n (h.known hl hgrows) hmachine

/-- A first part that ends normally leaves a session in which a source that has the program of
the second part, but for lines, comes to the same as the whole. -/
theorem sameEnd_pieces (hs : s.Reachable) (hline : ∀ line, Line line line)
    (ha : (s.analysis a).errors = [])
    (h : Analysis.Joined s.lexicon (s.analysis a) (s.analysis whole) second) {n k : Nat}
    {m : Machine} (hrun : s.running n a = .done .normal m)
    (hsupply : n ≤ (s.analysis a).program.length + k) {later : String}
    (hlater : (Analysis.ofSource later (s.analysis a).lexicon).errors = [])
    (hknown : (scan later (s.analysis a).lexicon).Known (s.analysis a).lexicon)
    (hprogram : Stmt.AllAlike (.between Line hknown.sound h.sound)
      (Analysis.ofSource later (s.analysis a).lexicon).program second) :
    SameEnd Line ((s.eval n a).2.eval k later)
      (s.eval ((s.analysis a).program.length + k) whole) := by
  -- The first source ends normally, and leaves a session for the second one.
  let after : Session := ⟨(s.analysis a).lexicon, m.note (.ran (s.analysis a).program.length)⟩
  have hfirst : s.eval n a = (.ok, after) := by
    rw [eval_concluded n ha, hrun]
    rfl
  obtain ⟨journal, hwhole⟩ := running_join h hrun hsupply
  obtain ⟨journal', hrest⟩ : ∃ journal, after.running k later =
      (execAll k (after.analysis later).program m).mapMachine (·.withJournal journal) :=
    execAll_journal k _ m (after.analysed (after.analysis later)).machine.journal
  -- The machine in between is the one that the whole program has at this point.
  have hself := running_alike hs h n hknown.sound hknown.grows
  rw [hrun] at hself
  have hm : m.Alike (.between Line hknown.sound h.sound) m := by
    cases hself with
    | done _ hm => exact hm.mono (Likeness.between_eq_le hline _ _)
  have hend := execAll_alike k hprogram hm
  rw [hfirst, eval_concluded k hlater, eval_concluded _ h.errors, hrest, hwhole]
  exact sameEnd_concluded hline hend journal' journal

/-- A first part that stops comes to exactly the same as the whole. -/
theorem sameEnd_stopped (s : Session) (a a' : Analysis) {h : a.lexicon.Sound}
    {h' : a'.lexicon.Sound} {x : Outcome Flow} (hstop : x.Stopped)
    (hself : x.Alike (.between Eq h h') (Flow.Alike (.between Eq h h')) x)
    (journal : Array Record) :
    let first := s.concluded a x
    let both := s.concluded a' (x.mapMachine (·.withJournal journal))
    both.1 = first.1 ∧ both.2.machine = first.2.machine.withJournal both.2.machine.journal ∧
      SameEnd Eq first both := by
  cases hstop with
  | returned v m =>
      cases hself with
      | done _ hm =>
          exact ⟨rfl, rfl, .of_alike (fun _ => rfl) (.same _) ⟨h, h', hm.withJournal _⟩⟩
  | failed e m =>
      cases hself with
      | failed _ hm =>
          exact ⟨rfl, rfl, .of_alike (fun _ => rfl) (.same _) ⟨h, h', hm.withJournal _⟩⟩

end Parts

end Session

open Session

/-- **Evaluating in pieces is evaluating at once.** Two sources without errors are joined by a
line end. The whole has no errors either, and in it the second source is further down by one
line more than the first one has line ends. As many empty lines in front of the second source
move its tokens down just as far.

If the first source runs to its end and gives back no value, the whole comes to the same as the
first source and then the second one behind these empty lines, and as the first and then the
second as it is, but for lines: the same verdict and the same machine, with its scopes, its
output, its input and its generator. If the first source fails or gives back a value, this is
also all that the whole comes to, and exactly so. -/
theorem eval_in_pieces {s : Session} (hs : s.Reachable) {a b : String}
    (ha : (s.analysis a).errors = []) (hb : (s.analysis b).errors = []) :
    let whole := a ++ "\n" ++ b
    let shift := 1 + Piece.newlines a.toList
    (s.analysis whole).errors = [] ∧
    (∀ l, scan (emptyLines shift ++ b) l = (scan b l).later shift) ∧
    (∀ n m, s.running n a = .done .normal m →
      ∀ k, n ≤ (s.analysis a).program.length + k →
        let first := s.eval n a
        let both := s.eval ((s.analysis a).program.length + k) whole
        first.1 = .ok ∧
        SameEnd Eq (first.2.eval k (emptyLines shift ++ b)) both ∧
        SameEnd (fun line line' => line' = line ∨ line' = line + shift) (first.2.eval k b) both) ∧
    ∀ n, (s.running n a).Stopped → ∀ k, n ≤ k →
      let first := s.eval n a
      let both := s.eval k whole
      both.1 = first.1 ∧ both.2.machine = first.2.machine.withJournal both.2.machine.journal ∧
        SameEnd Eq first both := by
  intro whole shift
  have hsound := hs.alike.sound
  have hfirst := scan_known a hsound
  obtain ⟨la, hla, hgrows, hjoined⟩ := Analysis.joined_ofSource hsound ha hb
  refine ⟨hjoined.errors, scan_emptyLines shift b, ?_, ?_⟩
  · intro n m hrun k hsupply first both
    refine ⟨?_, ?_, ?_⟩
    -- The three parts: the verdict, the second source moved down, and the second source as it is.
    · show (s.eval n a).1 = .ok
      rw [eval_concluded n ha, hrun]
      rfl
    · have hpushed := Analysis.alike_ofSource hfirst.sound hla (emptyLines shift ++ b)
      have herrors := Analysis.errors_emptyLines shift hsound hfirst.sound hb
      exact sameEnd_pieces hs (fun _ => rfl) ha hjoined hrun hsupply herrors
        (scan_known _ hfirst.sound) (hpushed.program.mono (Likeness.between_le (.refl _) hgrows))
    · have htokens := Analysis.tokens_emptyLines
        (fun line line' => line' = line ∨ line' = line + shift) (fun _ => .inr rfl) b
        hfirst.sound hla
      have herrors := (Analysis.alike_ofSource hsound hfirst.sound b).errors
      exact sameEnd_pieces hs (fun _ => .inl rfl) ha hjoined hrun hsupply (herrors.symm.trans hb)
        (scan_known _ hfirst.sound)
        ((parse_alike htokens).1.mono (Likeness.between_le (.refl _) hgrows))
  · intro n hstop k hsupply first both
    obtain ⟨journal, hwhole⟩ := running_join_of_stopped hjoined hstop hsupply
    -- The first source stops, so nothing of the second one is run in either way.
    have hself := running_alike hs hjoined n hfirst.sound (.refl _)
    have hend := sameEnd_stopped s (s.analysis a) (s.analysis whole) hstop hself journal
    rw [← hwhole, ← eval_concluded n ha, ← eval_concluded k hjoined.errors] at hend
    exact hend

/-- A session in which nothing was run yet. -/
def newSession : Session :=
  (start (.new 0) (.ofBytes [] none) (.empty none) (.splitMix 0) (.steady (.ok 0))).emptied

/-- A source of two lines. -/
def printing : String := "var x = 1;\nprint(x);"

/-- A source that fails on its second line. -/
def failing : String := "fun f() \x7b return x; \x7d\nprint(f() - nil);"

/-- An error on the second line of the second source is on the fourth line of the whole. With a
`return` in front of it, the second source is not run. -/
theorem eval_in_pieces_line :
    let line (r : Verdict × Session) : Option Nat :=
      match r.1 with
      | .failed e => some e.token.line
      | _ => none
    let first := newSession.eval 20 printing
    let both := newSession.eval 22 (printing ++ "\n" ++ failing)
    line (first.2.eval 20 failing) = some 2 ∧ line both = some 4 ∧
      both.2.machine.output.bytes.toList = "1".toUTF8.toList ∧
      SameEnd (fun line line' => line' = line ∨ line' = line + 2) (first.2.eval 20 failing) both ∧
      (newSession.eval 20 ("return 1;" ++ "\n" ++ failing)).1 =
        (newSession.eval 20 "return 1;").1 := by
  have hs : newSession.Reachable := .start 0 _ _ _ _
  have hfailing : (newSession.analysis failing).errors = [] := by decide +kernel
  have hpieces := eval_in_pieces hs (a := printing) (by decide +kernel) hfailing
  have hreturn := eval_in_pieces hs (a := "return 1;") (by decide +kernel) hfailing
  have hnormal : (match newSession.running 20 printing with
      | .done .normal _ => true
      | _ => false) = true := by decide +kernel
  have hstop : (match newSession.running 20 "return 1;" with
      | .done (.returned _) _ => true
      | _ => false) = true := by decide +kernel
  have hlength : (newSession.analysis printing).program.length = 2 := by decide +kernel
  -- The lines and the output are of fixed sources. That both ways end alike is the theorem.
  refine ⟨by decide +kernel, by decide +kernel, by decide +kernel, ?_, ?_⟩
  · split at hnormal
    case h_1 m hm =>
      have hend := (hpieces.2.2.1 20 m hm 20 (by omega)).2.2
      rw [hlength] at hend
      exact hend
    case h_2 => cases hnormal
  · split at hstop
    case h_1 v m hv =>
      exact (hreturn.2.2.2 20 (hv ▸ .returned v m) 20 (Nat.le_refl _)).1
    case h_2 => cases hstop

end Scriptlet
