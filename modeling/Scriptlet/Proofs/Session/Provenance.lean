import Scriptlet.Proofs.Run.Provenance
import Scriptlet.Proofs.Session.Steps
import Scriptlet.Run.SplitMix

/-!
# `Scriptlet.Proofs.Session.Provenance`: functions in a session are equal if they are copies

The book on copies (`Ledger`) is kept along a session, from the built-in functions on: one source
may declare functions that another source copies, and native functions can be made known at any
time.

* `Session.track`: the book during a step, also if the step is given up.
* `Session.trackAll`: the book after one step after the other.
* `Session.fits_trackAll`: the book is right between steps.
* `functions_equal_iff_copied`: so function values are equal exactly if they were copied from the
  same execution of a declaration, or of a registration of a native function.
-/

set_option autoImplicit false

namespace Scriptlet

/-- The value appeared somewhere, with this origin: as the value of an expression, or because a name
is bound to it. -/
def Ledger.Appears (l : Ledger) (m : Machine) (v : Value) (o : Origin) : Prop :=
  (v, o) ∈ l.seen ∨ ∃ name i, m.scopes.valueAt name i = some v ∧ o = l.origins i name.issue

/-- A value that appears in the machine has the origin that the book says. -/
theorem Ledger.Fits.accounts {l : Ledger} {m : Machine} (h : l.Fits m) {v : Value} {o : Origin}
    (hv : l.Appears m v o) : l.Accounts v o := by
  rcases hv with hseen | ⟨name, i, hbound, rfl⟩
  · exact h.seen hseen
  · exact h.bound hbound

/-- A machine without names needs an empty book. -/
theorem Ledger.fits_blank (input : Reader) (output : Sink) (generator : Generator)
    (clock : Clock) : Ledger.empty.Fits (.blank input output generator clock) where
  identity hf := nomatch hf
  seen hseen := nomatch hseen
  count := rfl
  bound {name i v} hv := by
    -- There is one scope, and it binds nothing.
    have hscope := Scopes.at?_openScope Scopes.empty none i
    replace hv : (Scopes.empty.openScope none).2.valueAt name i = some v := hv
    rw [Scopes.valueAt, hscope] at hv
    split at hv <;> cases hv

/-- What of the book counts after a step: a step that is given up is as if it had not been. -/
def Verdict.kept (verdict : Verdict) (before after : Ledger) : Ledger :=
  match verdict with
  | .starved => before
  | .ok | .rejected _ | .failed _ | .unreadable _ => after

namespace Session

/-- A native function is made known. -/
def trackNative (s : Session) (name : String) (arity : Nat) (op : Native) (l : Ledger) : Ledger :=
  l.execute ⟨s.machine.identities, .native name arity op⟩ s.machine.globals
    (s.lexicon.intern name).1

/-- The built-in functions are made known. -/
def trackNatives (s : Session) (l : Ledger) : List Builtin → Ledger
  | [] => l
  | b :: builtins =>
    trackNatives (s.defineNative b.name b.arity b.op) (s.trackNative b.name b.arity b.op l) builtins

/-- The book of a new session. -/
def trackStart (lexicon : Lexicon) (input : Reader) (output : Sink) (generator : Generator)
    (clock : Clock) : Ledger :=
  trackNatives ⟨lexicon, .blank input output generator clock⟩ .empty Native.builtins

/-- A source is run, unless there are errors in it. -/
def trackSource (s : Session) (n : Nat) (source : String) (l : Ledger) : Ledger :=
  let a := Analysis.ofSource source s.lexicon
  if a.errors = [] then (execAllTrack n a.program (s.analysed a).machine l).2 else l

/-- The book during a step, up to its end or to where it is given up. -/
def track (s : Session) (n : Nat) (step : Step) (l : Ledger) : Ledger :=
  match step with
  | .eval source => s.trackSource n source l
  | .reader source =>
    match source.readAll with
    | .ok text => s.trackSource n text l
    | .error _ => l
  | .native name arity op => s.trackNative name arity op l
  | .seed _ => l
  | .debug => l

/-- The book after one step after the other. -/
def trackAll (s : Session) (l : Ledger) : List (Nat × Step) → Ledger
  | [] => l
  | (n, step) :: steps =>
    trackAll (s.perform n step).2 ((s.act n step).1.kept l (s.track n step l)) steps

variable {s : Session} {l : Ledger}

/-- Making a native function known is kept in the book as the execution of a declaration. -/
theorem fits_trackNative (h : l.Fits s.machine) (name : String) (arity : Nat) (op : Native) :
    (s.trackNative name arity op l).Fits (s.defineNative name arity op).machine := by
  have hnote : l.Fits (s.machine.note (.registering name arity)) := h.of_eq rfl rfl
  exact hnote.execute (.native name arity op) s.machine.globals (s.lexicon.intern name).1

/-- So are several of them, one after the other. -/
theorem fits_trackNatives (h : l.Fits s.machine) (builtins : List Builtin) :
    (s.trackNatives l builtins).Fits
      (builtins.foldl (fun s b => s.defineNative b.name b.arity b.op) s).machine := by
  induction builtins generalizing s l with
  | nil => exact h
  | cons b builtins ih => exact ih (fits_trackNative h b.name b.arity b.op)

/-- The book of a new session is right about its built-in functions. -/
theorem fits_trackStart (lexicon : Lexicon) (input : Reader) (output : Sink) (generator : Generator)
    (clock : Clock) :
    (trackStart lexicon input output generator clock).Fits
      (start lexicon input output generator clock).machine :=
  fits_trackNatives (Ledger.fits_blank input output generator clock) Native.builtins

/-- A source leaves a book that is right, however it ends. -/
theorem fits_trackSource (h : l.Fits s.machine) (n : Nat) (source : String) :
    (s.trackSource n source l).Sound ∧
      ((s.eval n source).1.kept l (s.trackSource n source l)).Fits
        (s.eval n source).2.machine := by
  have hanalysed : l.Fits (s.analysed (Analysis.ofSource source s.lexicon)).machine :=
    h.of_eq rfl rfl
  unfold trackSource
  -- A source with errors is not run, so the book stays as it is.
  by_cases herrors : (Analysis.ofSource source s.lexicon).errors = []
  · rw [eval_accepted n herrors]
    simp only [if_pos herrors]
    have hrun := runProgram_tracks n (Analysis.ofSource source s.lexicon).program hanalysed
    refine ⟨hrun.sound, ?_⟩
    cases hx : runProgram n (Analysis.ofSource source s.lexicon).program
        (s.analysed (Analysis.ofSource source s.lexicon)).machine with
    | done _ m =>
        rw [hx] at hrun
        exact (hrun.ending rfl).of_eq rfl rfl
    | failed error m =>
        rw [hx] at hrun
        exact hrun.ending rfl
    | starved => exact hanalysed
  · rw [eval_rejected n herrors]
    simp only [if_neg herrors]
    exact ⟨h.toSound, hanalysed⟩

/-- The same for each step. -/
theorem fits_track (h : l.Fits s.machine) (n : Nat) (step : Step) :
    (s.track n step l).Sound ∧
      ((s.act n step).1.kept l (s.track n step l)).Fits (s.act n step).2.machine := by
  cases step with
  | eval source => exact fits_trackSource h n source
  | reader source =>
      simp only [track, act, evalReader]
      cases source.readAll with
      | ok text => exact fits_trackSource h n text
      | error words => exact ⟨h.toSound, h⟩
  | native name arity op =>
      have hnative := fits_trackNative h name arity op
      exact ⟨hnative.toSound, hnative⟩
  | seed seed => exact ⟨h.toSound, h.of_eq rfl rfl⟩
  | debug => exact ⟨h.toSound, h⟩

/-- Between steps the book is right. -/
theorem fits_trackAll (h : l.Fits s.machine) (steps : List (Nat × Step)) :
    (s.trackAll l steps).Fits (s.after steps).machine := by
  induction steps generalizing s l with
  | nil => exact h
  | cons first steps ih =>
      obtain ⟨n, step⟩ := first
      -- What was printed and noted down leaves the session, and nothing else.
      exact ih ((fits_track h n step).2.of_eq rfl rfl)

end Session

/-- Functions are equal exactly if they are copies of what one execution made: of a declaration, or
of a registration of a native function. In a session that has taken any steps, this holds of all
values that expressions ever had and of all values that names are bound to. It also holds of all
values that appear during a further step, even if that step is given up. -/
theorem functions_equal_iff_copied (lexicon : Lexicon) (input : Reader) (output : Sink)
    (generator : Generator) (clock : Clock) (steps : List (Nat × Session.Step)) (n : Nat)
    (step : Session.Step) :
    let first := Session.start lexicon input output generator clock
    let s := first.after steps
    let l := first.trackAll (Session.trackStart lexicon input output generator clock) steps
    l.TellsApart (l.Appears s.machine) ∧
      (s.track n step l).TellsApart fun v o => (v, o) ∈ (s.track n step l).seen := by
  intro first s l
  have hl : l.Fits s.machine :=
    Session.fits_trackAll (Session.fits_trackStart lexicon input output generator clock) steps
  have hstep := (Session.fits_track hl n step).1
  exact ⟨hl.tellsApart fun _ _ hv => hl.accounts hv, hstep.tellsApart fun _ _ hv => hstep.seen hv⟩

/-- The name `copy` is bound to what one call of `make` made, and this is equal to what the
declaration in that call made. Another call executes the declaration again and makes a function that
is equal to neither. The first seven executions make the built-in functions known. -/
theorem functions_equal_iff_copied_calls :
    let source :=
      "fun make() \x7b fun g() \x7b\x7d return g; \x7d var g = make(); var copy = g; make();"
    let input := Reader.ofBytes [] none
    let first := Session.start (.new 0) input (.empty none) (.splitMix 0) (.steady (.ok 0))
    let book := Session.trackStart (.new 0) input (.empty none) (.splitMix 0) (.steady (.ok 0))
    let s := first.after [(30, .eval source)]
    let l := first.trackAll book [(30, .eval source)]
    ∃ (f g : Callable) (copy : Value), l.executions[8]? = some f ∧ l.executions[9]? = some g ∧
      f.name = "g" ∧ g.name = "g" ∧
      s.machine.scopes.valueAt (s.lexicon.intern "copy").1 s.machine.globals = some copy ∧
      (Value.callable f == copy) = true ∧ (Value.callable g == copy) = false ∧
      (Value.callable f == Value.callable g) = false := by
  intro source input first book s l
  have htold : l.TellsApart (l.Appears s.machine) := (functions_equal_iff_copied (.new 0) input
    (.empty none) (.splitMix 0) (.steady (.ok 0)) [(30, .eval source)] 0 .debug).1
  have hnames : (l.executions.drop 8).map Callable.name = ["g", "g"] := by decide +kernel
  have hmade (k : Nat) : l.executions[8 + k]?.map Callable.name = ["g", "g"][k]? := by
    rw [← hnames, List.getElem?_map, List.getElem?_drop]
  obtain ⟨f, hf, hfname⟩ := Option.map_eq_some_iff.1 (hmade 0)
  obtain ⟨g, hg, hgname⟩ := Option.map_eq_some_iff.1 (hmade 1)
  have hbound : (s.machine.scopes.valueAt (s.lexicon.intern "copy").1 s.machine.globals).isSome =
      true := by decide +kernel
  obtain ⟨copy, hcopy⟩ := Option.isSome_iff_exists.1 hbound
  have horigin : l.origins s.machine.globals (s.lexicon.intern "copy").1.issue = some 8 := by
    decide +kernel
  have happears : l.Appears s.machine copy (some 8) := .inr ⟨_, _, hcopy, horigin.symm⟩
  refine ⟨f, g, copy, hf, hg, hfname, hgname, hcopy, (htold.equal_iff hf happears).2 rfl, ?_,
    htold.distinct hf hg (by decide)⟩
  -- The copy comes from the execution before.
  rw [Bool.eq_false_iff]
  exact fun hequal => absurd ((htold.equal_iff hg happears).1 hequal) (by decide)

end Scriptlet
