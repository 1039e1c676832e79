import Scriptlet.Proofs.Lexical.Scan
import Scriptlet.Proofs.Parser.Alike
import Scriptlet.Proofs.Run.Alike
import Scriptlet.Proofs.Session.Steps

/-!
# `Scriptlet.Proofs.Session.Alike`: sessions that nobody can tell apart

Sessions are alike if their lexicons are in order and their machines differ in the numbers of
symbols at most, and in the lines of what their functions were made of, which correspond as
`Line` says. Whatever is asked of them, alike sessions give the same answer, but for the line
of a run-time error, and stay alike (`Alike.perform`). So they give the same answers to every
row of questions (`Alike.answers_alike`, and `Alike.answers_eq` where all lines are the same).

Every session that can be reached is alike to itself (`Reachable.alike`). This says more than
it seems to: its lexicon is in order, and all names in its scopes are symbols of the lexicon.
-/

set_option autoImplicit false

namespace Scriptlet

/-- Symbols of two lexicons correspond if both are shared and they spell the same name. -/
def Likeness.between (Line : Nat → Nat → Prop) {l l' : Lexicon} (h : l.Sound) (h' : l'.Sound) :
    Likeness where
  Line := Line
  Name a a' := a ∈ l.interned ∧ a' ∈ l'.interned ∧ a.name = a'.name
  beq_eq := by
    rintro a a' b b' ⟨ha, ha', haName⟩ ⟨hb, hb', hbName⟩
    rw [Bool.eq_iff_iff, h.beq_iff ha hb, h'.beq_iff ha' hb', haName, hbName]

/-- Lexicons that grow keep their shared symbols. -/
theorem Likeness.between_le {Line : Nat → Nat → Prop} {l l₁ l' l₁' : Lexicon} {h : l.Sound}
    {h' : l'.Sound} {h₁ : l₁.Sound} {h₁' : l₁'.Sound} (hgrows : l.Grows l₁)
    (hgrows' : l'.Grows l₁') :
    (Likeness.between Line h h').Le (.between Line h₁ h₁') where
  line := id
  name := fun ⟨ha, ha', hname⟩ => ⟨hgrows.interned ha, hgrows'.interned ha', hname⟩

/-- More lines may correspond. -/
theorem Likeness.between_mono {Line Line' : Nat → Nat → Prop}
    (hline : ∀ line line', Line line line' → Line' line line') {l l' : Lexicon} (h : l.Sound)
    (h' : l'.Sound) : (Likeness.between Line h h').Le (.between Line' h h') where
  line := hline _ _
  name := id

/-- What corresponds with its lines corresponds if all lines correspond to themselves. -/
theorem Likeness.between_eq_le {Line : Nat → Nat → Prop} (hline : ∀ line, Line line line)
    {l l' : Lexicon} (h : l.Sound) (h' : l'.Sound) :
    (Likeness.between Eq h h').Le (.between Line h h') :=
  between_mono (fun _ _ heq => heq ▸ hline _) h h'

/-- The symbols of a name that two lexicons are asked for correspond. -/
theorem Likeness.between_intern (Line : Nat → Nat → Prop) {l l' : Lexicon} (h : l.Sound)
    (h' : l'.Sound) (name : String) :
    (Likeness.between Line (h.intern name) (h'.intern name)).Name
      (l.intern name).1 (l'.intern name).1 :=
  ⟨l.mem_intern name, l'.mem_intern name,
    (l.name_intern name).trans (l'.name_intern name).symm⟩

/-! ### The analysis of a source -/

/-- What a token says, wherever it stands: its kind, its spelling and its constant. -/
def Token.wording (t : Token) : Kind × String × Option Literal := (t.kind, t.name, t.literal)

/-- Tokens that say the same on corresponding lines. -/
structure Token.Matches (Line : Nat → Nat → Prop) (t t' : Token) : Prop where
  wording : t.wording = t'.wording
  line : Line t.line t'.line

/-- Tokens that match are alike if their names have shared symbols. -/
theorem tokens_alike_of_matches {Line : Nat → Nat → Prop} {l l' : Lexicon} (h : l.Sound)
    (h' : l'.Sound) {ts ts' : List Token} (hmatches : List.Forall₂ (Token.Matches Line) ts ts')
    (hnames : ∀ t ∈ ts, t.kind = .identifier → t.lexeme ∈ l.interned)
    (hnames' : ∀ t ∈ ts', t.kind = .identifier → t.lexeme ∈ l'.interned) :
    List.Forall₂ (Token.Alike (.between Line h h')) ts ts' := by
  rw [List.forall₂_iff_zip] at hmatches ⊢
  refine ⟨hmatches.1, fun {t t'} hpair => ?_⟩
  obtain ⟨hwording, hline⟩ := hmatches.2 hpair
  obtain ⟨ht, ht'⟩ := List.of_mem_zip hpair
  simp only [Token.wording, Prod.mk.injEq] at hwording
  obtain ⟨hkind, hname, hliteral⟩ := hwording
  refine ⟨hkind, hname, hliteral, hline, fun hident => ?_⟩
  exact ⟨hnames t ht hident, hnames' t' ht' (hkind ▸ hident), hname⟩

/-- Tokens that look the same and whose names have shared symbols are alike. -/
theorem tokens_alike {l l' : Lexicon} (h : l.Sound) (h' : l'.Sound) {ts ts' : List Token}
    (hbare : ts.map Token.bare = ts'.map Token.bare)
    (hnames : ∀ t ∈ ts, t.kind = .identifier → t.lexeme ∈ l.interned)
    (hnames' : ∀ t ∈ ts', t.kind = .identifier → t.lexeme ∈ l'.interned) :
    List.Forall₂ (Token.Alike (.between Eq h h')) ts ts' := by
  rw [← List.forall₂_eq_eq_eq, List.forall₂_map_left_iff, List.forall₂_map_right_iff] at hbare
  refine tokens_alike_of_matches h h' (hbare.imp fun t t' ht => ?_) hnames hnames'
  obtain ⟨hkind, hname, hliteral, hline⟩ := Token.bare_eq_iff.1 ht
  exact ⟨by rw [Token.wording, Token.wording, hkind, hname, hliteral], hline⟩

/-- Errors on the same lines that differ in their line at most are the same. -/
theorem StaticError.eq_of_alike {l l' : Lexicon} {h : l.Sound} {h' : l'.Sound}
    {es es' : List StaticError}
    (hes : List.Forall₂ (StaticError.Alike (.between Eq h h')) es es') : es = es' := by
  induction hes with
  | nil => rfl
  | @cons e e' _ _ he _ ih =>
      obtain ⟨line, location, defect⟩ := e
      obtain ⟨line', location', defect'⟩ := e'
      obtain ⟨hline, hlocation, hdefect⟩ := he
      cases hline
      cases hlocation
      cases hdefect
      rw [ih]

/-- What two lexicons make of one source: alike programs, and otherwise the same. -/
structure Analysis.Alike (l l' : Lexicon) (a a' : Analysis) : Prop where
  sound : a.lexicon.Sound
  sound' : a'.lexicon.Sound
  grows : l.Grows a.lexicon
  grows' : l'.Grows a'.lexicon
  program : Stmt.AllAlike (.between Eq sound sound') a.program a'.program
  errors : a.errors = a'.errors
  records : a.records = a'.records

/-- One source, analysed with two lexicons in order, gives programs and records that show the
same. -/
theorem Analysis.alike_ofSource {l l' : Lexicon} (h : l.Sound) (h' : l'.Sound)
    (source : String) : (Analysis.ofSource source l).Alike l l' (.ofSource source l') := by
  have hknown := scan_known source h
  have hknown' := scan_known source h'
  obtain ⟨hbare, hscan⟩ := scan_bare source h h'
  have htokens := tokens_alike hknown.sound hknown'.sound hbare hknown.names hknown'.names
  -- Tokens that are alike are parsed alike. The lines are the same, and so the errors are.
  obtain ⟨hprogram, hparse⟩ := parse_alike htokens
  have hparse := StaticError.eq_of_alike hparse
  have herrors : (ofSource source l).errors = (ofSource source l').errors := by
    simp only [errors, ofSource, hscan, hparse]
  refine ⟨hknown.sound, hknown'.sound, hknown.grows, hknown'.grows, hprogram, herrors, ?_⟩
  simp only [records, herrors]
  simp only [ofSource, hscan, hparse, htokens.length_eq, hprogram.length_eq]

/-! ### Answers -/

/-- What is seen of two verdicts is the same, but for the line of a run-time error. -/
inductive Shown.Alike (Line : Nat → Nat → Prop) : Shown → Shown → Prop where
  | same (x : Shown) : Shown.Alike Line x x
  | failed {kind : Kind} {spelling : String} {literal : Option Literal} {line line' : Nat}
      {fault : Fault} : Line line line' → Shown.Alike Line
        (.failed kind spelling literal line fault) (.failed kind spelling literal line' fault)

/-- If every line has to be the same, what is seen is the same. -/
theorem Shown.Alike.eq {x x' : Shown} (h : x.Alike Eq x') : x = x' := by
  cases h with
  | same => rfl
  | failed hline => rw [hline]

/-- An error that was seen shows nothing of the numbers of symbols. -/
theorem Shown.alike_failed {Line : Nat → Nat → Prop} {l l' : Lexicon} {h : l.Sound}
    {h' : l'.Sound} {e e' : RuntimeError} (he : e.Alike (.between Line h h') e') :
    (Verdict.failed e).shown.Alike Line (Verdict.failed e').shown := by
  obtain ⟨token, fault⟩ := e
  obtain ⟨token', fault'⟩ := e'
  have htoken : token.Alike _ token' := he.token
  have hfault : fault = fault' := he.fault
  simp only [Verdict.shown, htoken.kind, htoken.name, htoken.literal, hfault]
  exact .failed htoken.line

/-! ### Sessions -/

namespace Session

/-- Sessions that differ in the numbers of symbols, and in lines as `Line` says. -/
structure Alike (Line : Nat → Nat → Prop) (s s' : Session) : Prop where
  sound : s.lexicon.Sound
  sound' : s'.lexicon.Sound
  machine : s.machine.Alike (.between Line sound sound') s'.machine

/-- The same answer, but for the line of a run-time error. -/
structure Answer.Alike (Line : Nat → Nat → Prop) (x x' : Answer) : Prop where
  verdict : x.verdict.Alike Line x'.verdict
  sight : x.sight = x'.sight
  output : x.output = x'.output
  journal : x.journal = x'.journal

/-- So is an answer. -/
theorem Answer.Alike.eq {x x' : Answer} (h : x.Alike Eq x') : x = x' := by
  obtain ⟨verdict, sight, output, journal⟩ := x
  obtain ⟨verdict', sight', output', journal'⟩ := x'
  obtain ⟨hverdict, rfl, rfl, rfl⟩ := h
  have hverdict : verdict = verdict' := hverdict.eq
  rw [hverdict]

namespace Alike

variable {Line : Nat → Nat → Prop} {s s' : Session}

/-- Sessions stay alike while they analyse sources of which the same is noted down. -/
theorem analysed (h : s.Alike Line s') {a a' : Analysis} (hsound : a.lexicon.Sound)
    (hsound' : a'.lexicon.Sound) (hgrows : s.lexicon.Grows a.lexicon)
    (hgrows' : s'.lexicon.Grows a'.lexicon) (hrecords : a.records = a'.records) :
    (s.analysed a).Alike Line (s'.analysed a') := by
  refine ⟨hsound, hsound', ?_⟩
  obtain ⟨scopes, hscopes, hrest⟩ := h.machine.mono (Likeness.between_le hgrows hgrows')
  refine ⟨scopes, hscopes, ?_⟩
  unfold Session.analysed
  rw [hrest, hrecords]

/-- Alike programs come to the same end in sessions that are alike once the sources are
analysed. -/
theorem evalAccepted (n : Nat) {source source' : String}
    (ha : (Analysis.ofSource source s.lexicon).errors = [])
    (ha' : (Analysis.ofSource source' s'.lexicon).errors = [])
    (h : (s.analysed (.ofSource source s.lexicon)).Alike Line
      (s'.analysed (.ofSource source' s'.lexicon)))
    (hprogram : Stmt.AllAlike (.between Line h.sound h.sound')
      (Analysis.ofSource source s.lexicon).program
      (Analysis.ofSource source' s'.lexicon).program) :
    (s.eval n source).1.shown.Alike Line (s'.eval n source').1.shown ∧
      (s.eval n source).2.Alike Line (s'.eval n source').2 := by
  -- What was run is counted and noted down, and alike programs have as many statements.
  rw [eval_accepted n ha, eval_accepted n ha']
  have hrun := runProgram_alike n hprogram h.machine
  generalize runProgram n _ (s.analysed _).machine = x,
    runProgram n _ (s'.analysed _).machine = x' at hrun
  cases hrun with
  | done _ hm =>
      refine ⟨.same _, h.sound, h.sound', ?_⟩
      dsimp only
      rw [hprogram.length_eq]
      exact hm.note _
  | failed he hm => exact ⟨Shown.alike_failed he, h.sound, h.sound', hm⟩
  | starved => exact ⟨.same _, h⟩

/-- Alike sessions come to the same by one source. -/
theorem eval (hline : ∀ line, Line line line) (h : s.Alike Line s') (n : Nat)
    (source : String) : (s.eval n source).1.shown.Alike Line (s'.eval n source).1.shown ∧
      (s.eval n source).2.Alike Line (s'.eval n source).2 := by
  have ha := Analysis.alike_ofSource h.sound h.sound' source
  have hanalysed := h.analysed ha.sound ha.sound' ha.grows ha.grows' ha.records
  by_cases herrors : (Analysis.ofSource source s.lexicon).errors = []
  · -- The new program is the same on both sides, and stands on the same lines.
    exact evalAccepted n herrors (ha.errors ▸ herrors) hanalysed
      (ha.program.mono (Likeness.between_eq_le hline ha.sound ha.sound'))
  · rw [eval_rejected n herrors, eval_rejected n (ha.errors ▸ herrors), ha.errors]
    exact ⟨.same _, hanalysed⟩

/-- So they do by the source that a reader delivers. -/
theorem evalReader (hline : ∀ line, Line line line) (h : s.Alike Line s') (n : Nat)
    (source : Reader) :
    (s.evalReader n source).1.shown.Alike Line (s'.evalReader n source).1.shown ∧
      (s.evalReader n source).2.Alike Line (s'.evalReader n source).2 := by
  unfold Session.evalReader
  split
  · exact h.eval hline n _
  · exact ⟨.same _, h⟩

/-- A native function is made known to both under symbols of one name. -/
theorem defineNative (h : s.Alike Line s') (name : String) (arity : Nat) (op : Native) :
    (s.defineNative name arity op).Alike Line (s'.defineNative name arity op) := by
  refine ⟨h.sound.intern name, h.sound'.intern name, ?_⟩
  have hle : (Likeness.between Line h.sound h.sound').Le
      (.between Line (h.sound.intern name) (h.sound'.intern name)) :=
    Likeness.between_le (s.lexicon.intern_grows name) (s'.lexicon.intern_grows name)
  obtain ⟨scopes, hscopes, hrest⟩ := h.machine.mono hle
  have hname := Likeness.between_intern Line h.sound h.sound' name
  unfold Session.defineNative
  rw [hrest]
  exact ⟨_, hscopes.define _ hname (.callable ⟨rfl, .native⟩), rfl⟩

/-- Taking out output and journal leaves sessions alike. -/
theorem emptied (h : s.Alike Line s') : s.emptied.Alike Line s'.emptied := by
  refine ⟨h.sound, h.sound', ?_⟩
  obtain ⟨scopes, hscopes, hrest⟩ := h.machine
  unfold Session.emptied takeOutput takeJournal
  rw [hrest]
  exact ⟨scopes, hscopes, rfl⟩

/-- What is shown of the bindings is the same. -/
theorem sight_eq (h : s.Alike Line s') (step : Step) : s.sight step = s'.sight step := by
  cases step with
  | debug =>
      obtain ⟨scopes, hscopes, hrest⟩ := h.machine
      unfold sight Machine.description
      rw [hrest, hscopes.size_eq]
      rfl
  | _ => rfl

/-- A step comes to the same for both, and they stay alike. -/
theorem act (hline : ∀ line, Line line line) (h : s.Alike Line s') (n : Nat) (step : Step) :
    (s.act n step).1.shown.Alike Line (s'.act n step).1.shown ∧
      (s.act n step).2.Alike Line (s'.act n step).2 := by
  cases step with
  | eval source => exact h.eval hline n source
  | reader source => exact h.evalReader hline n source
  | seed seed =>
      refine ⟨.same _, h.sound, h.sound', ?_⟩
      obtain ⟨scopes, hscopes, hrest⟩ := h.machine
      show Machine.Alike _ _ { s'.machine with generator := s'.machine.generator.reseed seed }
      rw [hrest]
      exact ⟨scopes, hscopes, rfl⟩
  | native name arity op => exact ⟨.same _, h.defineNative name arity op⟩
  | debug => exact ⟨.same _, h⟩

/-- Steps that come to the same and show the same have the same answer. -/
theorem performed {n : Nat} {step step' : Step}
    (hshown : (s.act n step).1.shown.Alike Line (s'.act n step').1.shown)
    (hafter : (s.act n step).2.Alike Line (s'.act n step').2)
    (hsight : s.sight step = s'.sight step') :
    (s.perform n step).1.Alike Line (s'.perform n step').1 ∧
      (s.perform n step).2.Alike Line (s'.perform n step').2 := by
  obtain ⟨scopes, -, hrest⟩ := hafter.machine
  refine ⟨⟨hshown, hsight, ?_, ?_⟩, hafter.emptied⟩
  · show (s.act n step).2.machine.output.bytes = (s'.act n step').2.machine.output.bytes
    rw [hrest]
  · show (s.act n step).2.machine.journal = (s'.act n step').2.machine.journal
    rw [hrest]

/-- Alike sessions give the same answer and stay alike. -/
theorem perform (hline : ∀ line, Line line line) (h : s.Alike Line s') (n : Nat)
    (step : Step) : (s.perform n step).1.Alike Line (s'.perform n step).1 ∧
      (s.perform n step).2.Alike Line (s'.perform n step).2 := by
  obtain ⟨hshown, hafter⟩ := h.act hline n step
  exact performed hshown hafter (h.sight_eq step)

/-- Alike sessions answer in the same way, whatever they are asked. -/
theorem answers_alike (hline : ∀ line, Line line line) (h : s.Alike Line s')
    (steps : List (Nat × Step)) :
    List.Forall₂ (Answer.Alike Line) (s.answers steps) (s'.answers steps) := by
  induction steps generalizing s s' with
  | nil => exact .nil
  | cons step steps ih =>
      obtain ⟨hanswer, hafter⟩ := h.perform hline step.1 step.2
      exact .cons hanswer (ih hafter)

/-- Nobody can tell sessions apart that are alike in all lines. -/
theorem answers_eq (h : s.Alike Eq s') (steps : List (Nat × Step)) :
    s.answers steps = s'.answers steps := by
  have halike := h.answers_alike (fun _ => rfl) steps
  rw [← List.forall₂_eq_eq_eq]
  exact halike.imp fun _ _ => Answer.Alike.eq

end Alike

/-- Sessions that can be reached are alike to themselves: all their names have shared
symbols. -/
theorem Reachable.alike {s : Session} (h : Reachable s) : s.Alike Eq s := by
  induction h with
  | start tag input output generator clock =>
      have hsound := Lexicon.sound_new tag
      refine (start_induction (motive := fun s => s.Alike Eq s) (.new tag) input output generator
        clock ?_ fun s name arity op hs => hs.defineNative name arity op).emptied
      exact ⟨hsound, hsound, Machine.alike_blank _ _ _ _⟩
  | perform n step _ ih => exact (ih.perform (fun _ => rfl) n step).2

end Session

end Scriptlet
