import Scriptlet.Proofs.ByText.Eval
import Scriptlet.Proofs.Session.Alike
import Scriptlet.Run.SplitMix

/-!
# `Scriptlet.Proofs.ByText.Session`: names are the same by symbol and by text

A session that keeps its scopes by texts, and what ties it to `Scriptlet.Session`: between two
steps the lexicon is in order, and every key in the scopes, like every name in a function that
is bound, is a symbol that the lexicon shares (`Session.Keyed`). Shared symbols are equal
exactly when they spell the same, and so both sessions answer alike and bind alike.

`answers_by_text` is the main statement. It says too where the keys come from: every name in a
program that was analysed, and every name of a native function, has a shared symbol, and one
name has one symbol however often it occurs.
-/

set_option autoImplicit false

namespace Scriptlet

/-! ### The session -/

namespace ByText

/-- A session that keeps its scopes by texts. -/
structure Session where
  lexicon : Lexicon
  machine : Machine

namespace Session

open Scriptlet.Session (Step Answer)

/-- Makes a native function known in the outermost scope. -/
def defineNative (s : Session) (name : String) (arity : Nat) (op : Native) : Session :=
  let m := s.machine.note (.registering name arity)
  let (f, m) := m.makeCallable (.native name arity op)
  ⟨(s.lexicon.intern name).2, { m with scopes := m.scopes.define m.host.globals name f }⟩

/-- A session that knows the built-in functions. -/
def start (lexicon : Lexicon) (input : Reader) (output : Sink) (generator : Generator)
    (clock : Clock) : Session :=
  Native.builtins.foldl (fun s builtin => s.defineNative builtin.name builtin.arity builtin.op)
    ⟨lexicon, .blank input output generator clock⟩

/-- Runs a program with a supply of `n` steps. -/
def run (s : Session) (n : Nat) (program : Program) : Verdict × Session :=
  match (runProgram n program).run.run s.machine with
  | some (.ok _, m) => (.ok, { s with machine := m })
  | some (.error error, m) => (.failed error, { s with machine := m })
  | none => (.starved, s)

/-- Runs a source, unless there is an error in it. -/
def eval (s : Session) (n : Nat) (source : String) : Verdict × Session :=
  let analysis := Analysis.ofSource source s.lexicon
  let s : Session := ⟨analysis.lexicon, analysis.records.foldl Machine.note s.machine⟩
  if analysis.errors.isEmpty then
    match s.run n analysis.program with
    | (.ok, s) => (.ok, { s with machine := s.machine.note (.ran analysis.program.length) })
    | other => other
  else (.rejected analysis.errors, s)

/-- Runs the source that a reader delivers, if it delivers one. -/
def evalReader (s : Session) (n : Nat) (source : Reader) : Verdict × Session :=
  match source.readAll with
  | .ok text => s.eval n text
  | .error words => (.unreadable words, s)

/-- What a step comes to, before output and journal are taken out. -/
def act (n : Nat) (s : Session) : Step → Verdict × Session
  | .eval source => s.eval n source
  | .reader source => s.evalReader n source
  | .seed seed =>
    (.ok, { s with machine.host.generator := s.machine.host.generator.reseed seed })
  | .native name arity op => (.ok, s.defineNative name arity op)
  | .debug => (.ok, s)

/-- What a step shows of the machine. -/
def sight (s : Session) : Step → Option String
  | .debug =>
    some ("Evaluator \x7b globals: " ++ toString (s.machine.scopes.size s.machine.host.globals) ++
      ", nested: " ++ (if s.machine.host.isNested then "true" else "false") ++ ", .. \x7d")
  | _ => none

/-- The session without its output and its journal. -/
def emptied (s : Session) : Session :=
  { s with machine.host.output.bytes := .empty, machine.host.journal := #[] }

/-- Takes a step with a supply of `n` steps for programs. -/
def perform (n : Nat) (s : Session) (step : Step) : Answer × Session :=
  let (verdict, after) := s.act n step
  (⟨verdict.shown, s.sight step, after.machine.host.output.bytes, after.machine.host.journal⟩,
    after.emptied)

/-- The answers to one step after the other, each with its own supply. -/
def answers (s : Session) : List (Nat × Step) → List Answer
  | [] => []
  | (n, step) :: steps => (s.perform n step).1 :: answers (s.perform n step).2 steps

/-- The session after one step after the other. -/
def after (s : Session) : List (Nat × Step) → Session
  | [] => s
  | (n, step) :: steps => after (s.perform n step).2 steps

end Session

end ByText

/-- The session without the symbols in its scopes. -/
def Session.byText (s : Session) : ByText.Session := ⟨s.lexicon, s.machine.byText⟩

/-! ### Names of programs -/

/-- Each token of a row that corresponds to another row has a name that corresponds to one. -/
theorem Token.name_of_alike {ρ : Likeness} {ts ts' : List Token}
    (h : List.Forall₂ (Token.NameAlike ρ) ts ts') :
    ∀ t ∈ ts, ∃ name', ρ.Name t.lexeme name' := by
  induction h with
  | nil => nofun
  | cons ht _ ih =>
      rintro t (_ | ⟨_, hmem⟩)
      · exact ⟨_, ht.lexeme⟩
      · exact ih t hmem

mutual

/-- A name in an expression that is alike to another one corresponds to a name. -/
theorem Expr.Alike.names {ρ : Likeness} {e e' : Expr} : e.Alike ρ e' →
    ∀ name ∈ e.names, ∃ name', ρ.Name name name'
  | .literal => nofun
  | .group h | .unary _ h => h.names
  | .binary ha _ hb | .logical ha _ hb => fun name hname =>
    (List.mem_append.1 hname).elim (ha.names name) (hb.names name)
  | .get h => by
    intro name hname
    cases List.mem_singleton.1 hname
    exact ⟨_, h.lexeme⟩
  | .set h he => by
    rintro name (_ | ⟨_, hname⟩)
    · exact ⟨_, h.lexeme⟩
    · exact he.names name hname
  | .call hf _ hargs => fun name hname =>
    (List.mem_append.1 hname).elim (hf.names name) (hargs.names name)

/-- The names in several expressions correspond to names. -/
theorem Expr.AllAlike.names {ρ : Likeness} {es es' : List Expr} : Expr.AllAlike ρ es es' →
    ∀ name ∈ Expr.namesAll es, ∃ name', ρ.Name name name'
  | .nil => nofun
  | .cons he hes => fun name hname =>
    (List.mem_append.1 hname).elim (he.names name) (hes.names name)

end

/-- So do those in an expression that may be missing. -/
theorem Expr.names_of_rel {ρ : Likeness} {e e' : Option Expr} : e.Rel (Expr.Alike ρ) e' →
    ∀ name ∈ e.elim [] Expr.names, ∃ name', ρ.Name name name'
  | .none => nofun
  | .some h => h.names

mutual

/-- A name in a statement that is alike to another one corresponds to a name. -/
theorem Stmt.Alike.names {ρ : Likeness} {s s' : Stmt} : s.Alike ρ s' →
    ∀ name ∈ s.names, ∃ name', ρ.Name name name'
  | .expression he => he.names
  | .declare h hinit => by
    rintro name (_ | ⟨_, hname⟩)
    · exact ⟨_, h.lexeme⟩
    · exact Expr.names_of_rel hinit name hname
  | .block hbody => hbody.names
  | .branch hc hyes hno => fun name hname =>
    (List.mem_append.1 hname).elim (hc.names name) fun hname =>
      (List.mem_append.1 hname).elim (hyes.names name) (hno.names name)
  | .branchOnly hc hyes => fun name hname =>
    (List.mem_append.1 hname).elim (hc.names name) fun hname =>
      (List.mem_append.1 hname).elim (hyes.names name) nofun
  | .loop hc hbody => fun name hname =>
    (List.mem_append.1 hname).elim (hc.names name) (hbody.names name)
  | .function h hparams hbody => by
    rintro name (_ | ⟨_, hname⟩)
    · exact ⟨_, h.lexeme⟩
    · rcases List.mem_append.1 hname with hname | hname
      · obtain ⟨param, hparam, rfl⟩ := List.mem_map.1 hname
        exact Token.name_of_alike hparams param hparam
      · exact hbody.names name hname
  | .giveBack _ hresult => Expr.names_of_rel hresult

/-- The names in several statements correspond to names. -/
theorem Stmt.AllAlike.names {ρ : Likeness} {ss ss' : List Stmt} : Stmt.AllAlike ρ ss ss' →
    ∀ name ∈ Stmt.namesAll ss, ∃ name', ρ.Name name name'
  | .nil => nofun
  | .cons hs hss => fun name hname =>
    (List.mem_append.1 hname).elim (hs.names name) (hss.names name)

end

/-- Every name in a program that was analysed has a shared symbol. -/
theorem Analysis.names_interned {l : Lexicon} (h : l.Sound) (source : String) :
    ∀ name ∈ Stmt.namesAll (ofSource source l).program,
      name ∈ (ofSource source l).lexicon.interned := by
  intro name hname
  obtain ⟨_, hmem, -⟩ := (alike_ofSource h h source).program.names name hname
  exact hmem

/-! ### Keys -/

/-- A function with names as `K` says has names as any weaker condition says. -/
theorem Callable.Fits.imp {K K' : Symbol → Prop} (hle : ∀ a, K a → K' a) {count : Nat}
    {f : Callable} (h : f.Fits K count) : f.Fits K' count := by
  obtain ⟨identity, code⟩ := f
  cases code with
  | native => trivial
  | user decl closure =>
      obtain ⟨hclosure, hparams, hbody⟩ := h
      exact ⟨hclosure, fun p hp => hle _ (hparams p hp), fun s hs x hx => hle x (hbody s hs x hx)⟩

/-- A machine that is sound for some names is sound for more. -/
theorem Machine.Sound.imp {K K' : Symbol → Prop} (hle : ∀ a, K a → K' a) {m : Machine}
    (h : m.Sound K) : m.Sound K' := by
  refine { h with holds := fun id scope hscope binding hbinding => ?_ }
  obtain ⟨hname, hvalue⟩ := h.holds id scope hscope binding hbinding
  refine ⟨hle _ hname, ?_⟩
  cases hv : binding.2 with
  | callable f =>
      rw [hv] at hvalue
      exact Callable.Fits.imp hle hvalue
  | _ => trivial

namespace Session

/-- The lexicon is in order, and all keys are symbols that it shares. -/
structure Keyed (s : Session) : Prop where
  lexicon : s.lexicon.Sound
  machine : s.machine.Sound (· ∈ s.lexicon.interned)

/-- Taking out output and journal leaves all names where they are. -/
theorem Keyed.emptied {s : Session} (h : s.Keyed) : s.emptied.Keyed :=
  ⟨h.lexicon, h.machine.of_eq rfl rfl rfl⟩

/-- An analysis issues symbols, and all keys stay shared. -/
theorem Keyed.analysed {s : Session} (h : s.Keyed) (source : String) :
    (s.analysed (Analysis.ofSource source s.lexicon)).Keyed := by
  have hknown := scan_known source h.lexicon
  have hmachine := h.machine.imp fun _ ha => hknown.grows.interned ha
  exact ⟨hknown.sound, hmachine.of_eq rfl rfl rfl⟩

/-- A name that the host makes known becomes a shared symbol, if it is not one already. -/
theorem Keyed.defineNative {s : Session} (h : s.Keyed) (name : String) (arity : Nat)
    (op : Native) : (s.defineNative name arity op).Keyed := by
  have hmachine := h.machine.imp fun _ ha => (s.lexicon.intern_grows name).interned ha
  refine ⟨h.lexicon.intern name, hmachine.nested.define _ _ _, ?_, ?_, ?_⟩
  · simpa [Session.defineNative, Machine.note, Machine.makeCallable] using hmachine.current
  · simpa [Session.defineNative, Machine.note, Machine.makeCallable] using hmachine.globals
  · -- A native function remembers no scope and mentions no name.
    have hfits : Value.Fits (· ∈ (s.lexicon.intern name).2.interned) s.machine.scopes.count
        (.callable ⟨s.machine.identities, .native name arity op⟩) := trivial
    simpa [Session.defineNative, Machine.note, Machine.makeCallable] using
      hmachine.holds.define s.machine.globals (s.lexicon.mem_intern name) hfits

/-- The name of a native function is bound by its text as it is bound by its symbol. -/
theorem byText_defineNative {s : Session} (h : s.Keyed) (name : String) (arity : Nat)
    (op : Native) :
    s.byText.defineNative name arity op = (s.defineNative name arity op).byText := by
  have hmachine := h.machine.imp fun _ ha => (s.lexicon.intern_grows name).interned ha
  have hdefine := Scopes.byText_define (h.lexicon.intern name).tellsApart
    (s.lexicon.mem_intern name) hmachine.holds s.machine.globals
    (.callable ⟨s.machine.identities, .native name arity op⟩)
  rw [s.lexicon.name_intern name] at hdefine
  unfold Session.defineNative byText Machine.byText
  dsimp only [Machine.note, Machine.makeCallable]
  rw [hdefine]
  rfl

/-- What a step comes to for a session that is in order: it stays in order, no shared symbol is
lost, and by texts the step comes to the same. -/
structure Parallel (s : Session) (result : Verdict × Session)
    (textual : Verdict × ByText.Session) : Prop where
  keyed : result.2.Keyed
  grows : s.lexicon.Grows result.2.lexicon
  byText : textual = (result.1, result.2.byText)

/-- Notes are added alike with symbols and without. -/
theorem foldl_note_byText (records : List Record) (m : Machine) :
    records.foldl ByText.Machine.note m.byText = (records.foldl Machine.note m).byText := by
  induction records generalizing m with
  | nil => rfl
  | cons record records ih => exact ih (m.note record)

/-- A program whose names are shared runs by texts as it runs by symbols. -/
theorem Keyed.run {s : Session} (h : s.Keyed) (n : Nat) {program : Program}
    (hprogram : ∀ name ∈ Stmt.namesAll program, name ∈ s.lexicon.interned) :
    s.Parallel (s.run n program) (s.byText.run n program) := by
  have hnames : ∀ stmt ∈ program, ∀ name ∈ stmt.names, name ∈ s.lexicon.interned :=
    fun stmt hstmt name hname => hprogram name (Stmt.names_subset_all hstmt hname)
  have hagrees := runProgram_byText h.lexicon.tellsApart n hnames h.machine
  have hkeeps := Upkeep.runProgram_keeps (soundUpkeep_lawful _) n hnames h.machine
  unfold Session.run ByText.Session.run
  rw [show s.byText.machine = s.machine.byText from rfl, hagrees]
  cases hrun : runProgram n program s.machine with
  | done _ m =>
      rw [hrun] at hkeeps
      exact ⟨⟨h.lexicon, hkeeps.1.sound⟩, .refl _, rfl⟩
  | failed error m =>
      rw [hrun] at hkeeps
      exact ⟨⟨h.lexicon, hkeeps.sound⟩, .refl _, rfl⟩
  | starved => exact ⟨h, .refl _, rfl⟩

/-- Running a source by texts, seen from the session after the analysis. -/
theorem eval_byText (s : Session) (n : Nat) (source : String) :
    let a := Analysis.ofSource source s.lexicon
    s.byText.eval n source =
      if a.errors.isEmpty then
        match (s.analysed a).byText.run n a.program with
        | (.ok, t) => (.ok, { t with machine := t.machine.note (.ran a.program.length) })
        | other => other
      else (.rejected a.errors, (s.analysed a).byText) := by
  intro a
  -- The records of the analysis are notes, so both machines get them.
  have hanalysed : (⟨a.lexicon, a.records.foldl ByText.Machine.note s.machine.byText⟩ :
      ByText.Session) = (s.analysed a).byText := by
    rw [foldl_note_byText, Machine.foldl_note]
    rfl
  rw [← hanalysed]
  rfl

/-- A source comes to the same by texts. If there is an error in it, neither session runs
anything. -/
theorem Keyed.eval {s : Session} (h : s.Keyed) (n : Nat) (source : String) :
    s.Parallel (s.eval n source) (s.byText.eval n source) := by
  have hgrows := (scan_known source h.lexicon).grows
  have hrun := (h.analysed source).run n (Analysis.names_interned h.lexicon source)
  have hanalysed := h.analysed source
  rw [eval_byText]
  unfold Session.eval
  simp only [Machine.foldl_note]
  rw [← Session.analysed]
  -- Both analyse the source with the same lexicon, so both reject it or both run its program.
  split
  · rw [hrun.byText]
    obtain ⟨hkeyed, hlater, -⟩ := hrun
    have hgrows := hgrows.trans hlater
    generalize (s.analysed _).run n _ = result at hkeyed hgrows
    obtain ⟨verdict, after⟩ := result
    cases verdict with
    | ok => exact ⟨⟨hkeyed.lexicon, hkeyed.machine.note _⟩, hgrows, rfl⟩
    | _ => exact ⟨hkeyed, hgrows, rfl⟩
  · exact ⟨hanalysed, hgrows, rfl⟩

/-- What a step comes to is the same by texts, whichever step it is. -/
theorem Keyed.act {s : Session} (h : s.Keyed) (n : Nat) (step : Step) :
    s.Parallel (s.act n step) (s.byText.act n step) := by
  cases step with
  | eval source => exact h.eval n source
  | reader reader =>
      show s.Parallel (s.evalReader n reader) (s.byText.evalReader n reader)
      unfold evalReader ByText.Session.evalReader
      cases reader.readAll with
      | ok source => exact h.eval n source
      | error words => exact ⟨h, .refl _, rfl⟩
  | seed seed => exact ⟨⟨h.lexicon, h.machine.of_eq rfl rfl rfl⟩, .refl _, rfl⟩
  | native name arity op =>
      refine ⟨h.defineNative name arity op, s.lexicon.intern_grows name, ?_⟩
      exact congrArg (Prod.mk _) (byText_defineNative h name arity op)
  | debug => exact ⟨h, .refl _, rfl⟩

/-- What is shown of bindings is shown of texts, so the symbols are not missed. -/
theorem sight_byText (s : Session) (step : Step) : s.byText.sight step = s.sight step := by
  cases step with
  | debug =>
      have hsize := Scopes.size_byText s.machine.scopes s.machine.globals
      unfold ByText.Session.sight sight Machine.description
      rw [show s.byText.machine.scopes = s.machine.scopes.byText from rfl,
        show s.byText.machine.host.globals = s.machine.globals from rfl, hsize]
      rfl
  | _ => rfl

/-- A step shows the same by texts, and leaves the same. -/
theorem Keyed.perform {s : Session} (h : s.Keyed) (n : Nat) (step : Step) :
    s.byText.perform n step = ((s.perform n step).1, (s.perform n step).2.byText) := by
  have hact := (h.act n step).byText
  unfold ByText.Session.perform Session.perform
  rw [hact, sight_byText]
  rfl

/-- What holds of a session that is in order and of what a step makes of it. -/
theorem Keyed.after {s : Session} (h : s.Keyed) (steps : List (Nat × Step)) :
    (s.after steps).Keyed ∧ s.lexicon.Grows (s.after steps).lexicon ∧
      s.byText.answers steps = s.answers steps ∧
      s.byText.after steps = (s.after steps).byText := by
  induction steps generalizing s with
  | nil => exact ⟨h, .refl _, rfl, rfl⟩
  | cons asked steps ih =>
      obtain ⟨n, step⟩ := asked
      have hact := h.act n step
      have hperform := h.perform n step
      obtain ⟨hkeyed, hgrows, hanswers, hafter⟩ := ih (s := (s.perform n step).2)
        hact.keyed.emptied
      refine ⟨hkeyed, hact.grows.trans hgrows, ?_, ?_⟩
      · rw [ByText.Session.answers, hperform, hanswers]
        rfl
      · rw [ByText.Session.after, hperform, hafter]
        rfl

/-- Taking out output and journal is done to both alike. -/
theorem emptied_byText (s : Session) : s.byText.emptied = s.emptied.byText := rfl

/-- Several host functions are made known one after the other. -/
theorem Keyed.defineNatives {s : Session} (h : s.Keyed) (builtins : List Builtin) :
    let t := builtins.foldl (fun s b => s.defineNative b.name b.arity b.op) s
    t.Keyed ∧ builtins.foldl (fun s b => s.defineNative b.name b.arity b.op) s.byText =
      t.byText := by
  induction builtins generalizing s with
  | nil => exact ⟨h, rfl⟩
  | cons builtin builtins ih =>
      have ih := ih (h.defineNative builtin.name builtin.arity builtin.op)
      rw [← byText_defineNative h] at ih
      exact ih

/-- A new session is in order, and by texts it is the same. -/
theorem keyed_start (tag : Nat) (input : Reader) (output : Sink) (generator : Generator)
    (clock : Clock) :
    (start (.new tag) input output generator clock).Keyed ∧
      ByText.Session.start (.new tag) input output generator clock =
        (start (.new tag) input output generator clock).byText := by
  have hblank : (Session.mk (.new tag) (.blank input output generator clock)).Keyed :=
    ⟨Lexicon.sound_new tag, Machine.sound_blank _ _ _ _ _⟩
  have hall := hblank.defineNatives Native.builtins
  unfold start ByText.Session.start
  rw [← Machine.byText_blank]
  generalize Native.builtins = builtins at hall
  exact hall

/-! ### Where keys come from -/

/-- The symbols that a step brings into the session as names: those of the program of its
source, or the one of a native function. -/
def keys (s : Session) (step : Step) : List Symbol :=
  match step with
  | .native name _ _ => [(s.lexicon.intern name).1]
  | _ => step.source?.elim [] fun source =>
      Stmt.namesAll (Analysis.ofSource source s.lexicon).program

/-- The symbols that steps bring into the session as names. -/
def keysAll (s : Session) : List (Nat × Step) → List Symbol
  | [] => []
  | (n, step) :: steps => s.keys step ++ keysAll (s.perform n step).2 steps

/-- A source leaves the lexicon as its analysis does, whether it is run or not. -/
theorem lexicon_eval (s : Session) (n : Nat) (source : String) :
    (s.eval n source).2.lexicon = (Analysis.ofSource source s.lexicon).lexicon := by
  by_cases herrors : (Analysis.ofSource source s.lexicon).errors = []
  · rw [eval_accepted n herrors]
    cases runProgram n _ _ <;> rfl
  · rw [eval_rejected n herrors]
    rfl

/-- The names that a step brings have shared symbols after it. -/
theorem Keyed.keys_interned {s : Session} (h : s.Keyed) (n : Nat) (step : Step) :
    ∀ key ∈ s.keys step, key ∈ (s.act n step).2.lexicon.interned := by
  have hsource : ∀ source, ∀ key ∈ Stmt.namesAll (Analysis.ofSource source s.lexicon).program,
      key ∈ (s.eval n source).2.lexicon.interned := by
    intro source key hkey
    rw [lexicon_eval]
    exact Analysis.names_interned h.lexicon source key hkey
  cases step with
  | eval source => exact hsource source
  | reader reader =>
      intro key hkey
      show key ∈ (s.evalReader n reader).2.lexicon.interned
      unfold evalReader
      cases hread : reader.readAll with
      | ok source =>
          simp only [keys, Step.source?, hread, Except.toOption] at hkey
          exact hsource source key hkey
      | error words =>
          simp only [keys, Step.source?, hread, Except.toOption] at hkey
          cases hkey
  | seed | debug => nofun
  | native name arity op =>
      intro key hkey
      cases List.mem_singleton.1 hkey
      exact s.lexicon.mem_intern name

/-- All names that steps bring have shared symbols in the end. No step takes a symbol back. -/
theorem Keyed.keysAll_interned {s : Session} (h : s.Keyed) (steps : List (Nat × Step)) :
    ∀ key ∈ s.keysAll steps, key ∈ (s.after steps).lexicon.interned := by
  induction steps generalizing s with
  | nil => nofun
  | cons asked steps ih =>
      obtain ⟨n, step⟩ := asked
      have hkeyed : (s.perform n step).2.Keyed := (h.act n step).keyed.emptied
      intro key hkey
      rcases List.mem_append.1 hkey with hkey | hkey
      -- What is shared after this step is shared after all others.
      · exact (hkeyed.after steps).2.1.interned (h.keys_interned n step key hkey)
      · exact ih hkeyed key hkey

end Session

/-- **Names are the same by symbol and by text.** A session that keeps its scopes by symbols,
which it compares by their number, and one that keeps them by texts are asked the same things,
whatever they are. They give the same answers and have the same bindings: the scopes of the one
are those of the other with the text of each symbol, and a shared symbol has the value that its
text has. All keys in the scopes are symbols that the lexicon shares, and so are all names of
all programs that were analysed and of all native functions. Two of these are equal exactly when
they spell the same, in whatever steps they occur. -/
theorem answers_by_text (tag : Nat) (input : Reader) (output : Sink) (generator : Generator)
    (clock : Clock) (steps : List (Nat × Session.Step)) :
    let s := (Session.start (.new tag) input output generator clock).emptied
    let t := (ByText.Session.start (.new tag) input output generator clock).emptied
    let shared := (s.after steps).lexicon.interned
    t.answers steps = s.answers steps ∧
    t.after steps = (s.after steps).byText ∧
    (∀ key ∈ shared, ∀ id, (t.after steps).machine.scopes.get? id key.name =
      (s.after steps).machine.scopes.get? id key) ∧
    (s.after steps).machine.scopes.Holds (· ∈ shared) (fun _ => True) ∧
    (∀ key ∈ s.keysAll steps, key ∈ shared) ∧
    ∀ a ∈ s.keysAll steps, ∀ b ∈ s.keysAll steps, (a == b) = true ↔ a.name = b.name := by
  intro s t shared
  obtain ⟨hkeyed, hstart⟩ := Session.keyed_start tag input output generator clock
  have ht : t = s.byText := by
    show (ByText.Session.start (.new tag) input output generator clock).emptied = s.byText
    rw [hstart, Session.emptied_byText]
  have hs : s.Keyed := hkeyed.emptied
  obtain ⟨hafter, -, hanswers, htexts⟩ := hs.after steps
  have hkeys := hs.keysAll_interned steps
  rw [ht]
  refine ⟨hanswers, htexts, fun key hkey id => ?_, ?_, hkeys, fun a ha b hb => ?_⟩
  · rw [htexts]
    exact Scopes.get?_byText hafter.lexicon.tellsApart hkey hafter.machine.holds id
  · exact hafter.machine.holds.imp fun _ _ => trivial
  · exact hafter.lexicon.beq_iff (hkeys a ha) (hkeys b hb)

/-- A name is declared by one source, occurs in one that is rejected, is made known as a native
function, and is called by a last source. Wherever it came into a program it is one key, and by
text the session answers the same. -/
theorem answers_by_text_one_name :
    let s := (Session.start (.new 0) (.ofBytes [] none) (.empty none)
      (.splitMix 0) (.steady (.ok 0))).emptied
    let t := (ByText.Session.start (.new 0) (.ofBytes [] none) (.empty none)
      (.splitMix 0) (.steady (.ok 0))).emptied
    let steps : List (Nat × Session.Step) := [(20, .eval "var f = 1;"), (20, .eval "f(;"),
      (20, .native "f" 0 (.host fun _ => .ok (.constant (.number 42)))), (20, .eval "f();")]
    (s.keysAll steps).map (·.name) = ["f", "f", "f"] ∧
      (∀ a ∈ s.keysAll steps, ∀ b ∈ s.keysAll steps, (a == b) = true) ∧
      t.answers steps = s.answers steps := by
  intro s t steps
  have hnames : (s.keysAll steps).map (·.name) = ["f", "f", "f"] := by decide +kernel
  have hspelled : ∀ a ∈ s.keysAll steps, a.name = "f" := by
    intro a ha
    have hmem := List.mem_map_of_mem (f := (·.name)) ha
    rw [hnames] at hmem
    simpa using hmem
  obtain ⟨hanswers, -, -, -, -, hkeys⟩ :=
    answers_by_text 0 (.ofBytes [] none) (.empty none) (.splitMix 0) (.steady (.ok 0)) steps
  refine ⟨hnames, fun a ha b hb => ?_, hanswers⟩
  exact (hkeys a ha b hb).2 ((hspelled a ha).trans (hspelled b hb).symm)

end Scriptlet
