import Scriptlet.Proofs.Run.Reader
import Scriptlet.Proofs.Run.Refit

/-!
# `Scriptlet.Proofs.Run.Delivery`: which bytes of the input go to programs

Programs read by one native function, which takes the next line of the input. The lines that are
taken in the course of a run, in the order of the calls, are the front part of the input, and the
rest is what can still be read afterwards. This is so whatever else the run does, whether it fails,
and whether the lines are text.

* `refits_held`: no run notices whether its reader has fetched all its bytes already.
* `deliveryWatch`: the lines that are taken, and what is left, are what was pending.
* `readingUpkeep_lawful`: a reader that fetches byte by byte holds nothing back at the end of a run.
* `Session.deliveries_append_pending`: the same for a source, however its run ends.
* `Session.readsInTurn`: each call that reads takes the next line behind those that were taken.
-/

set_option autoImplicit false

namespace Scriptlet

/-! ### Native functions and the input -/

namespace Native

/-- What a call answers when it reads a line: the line without its end, nil, or an error. -/
def lineAnswer : Except String (Option String) → Except Fault Value
  | .ok (some line) => .ok (.string (chompLine line))
  | .ok none => .ok .nil
  | .error words => .error (.io words)

/-- A call reads one line and answers it, whatever its arguments are. -/
theorem run_readLine (args : List Value) (m : Machine) :
    readLine.run args m
      = (lineAnswer m.input.readLine.1, { m with input := m.input.readLine.2 }) := by
  simp only [run, runReadLine]
  cases m.input.readLine.1 with
  | error words => rfl
  | ok line => cases line <;> rfl

/-- What a call answers when it asks for the time. -/
def timeAnswer : Except String Float → Except Fault Value
  | .ok seconds => .ok (.number seconds)
  | .error words => .error (.clock words)

/-- The clock moves on by one reading, which is the answer. -/
theorem run_clock (args : List Value) (m : Machine) :
    clock.run args m = (timeAnswer m.clock.read.1, { m with clock := m.clock.read.2 }) := by
  simp only [run, runClock]
  cases m.clock.read.1 <;> rfl

/-- Random numbers come from the generator, whatever is read and written. -/
theorem runRandomRange_eq (low high : Float) (m : Machine) :
    ∃ reply generator, ∀ input output,
      runRandomRange low high { m with input, output }
        = (reply, { m with input, output, generator }) := by
  unfold runRandomRange
  by_cases hrange : (!low.isFinite || !high.isFinite || high < low) = true
  · simp only [if_pos hrange]
    exact ⟨_, m.generator, fun _ _ => rfl⟩
  · by_cases hwidth : (!(high - low).isFinite) = true
    · simp only [if_neg hrange, if_pos hwidth]
      exact ⟨_, m.generator, fun _ _ => rfl⟩
    · simp only [if_neg hrange, if_neg hwidth]
      exact ⟨_, _, fun _ _ => rfl⟩

/-- All other native functions neither see nor change the input. -/
theorem run_withInput {op : Native} (hop : op ≠ .readLine) (args : List Value) (m : Machine)
    (r : Reader) :
    op.run args { m with input := r }
      = ((op.run args m).1, { (op.run args m).2 with input := r }) := by
  cases op with
  | readLine => exact absurd rfl hop
  | clock =>
      rw [run_clock, run_clock]
  | randomRangeRounded =>
      simp only [run, runRandomRangeRounded]
      split
      case h_1 low high _ _ =>
        obtain ⟨reply, generator, hrun⟩ := runRandomRange_eq low high m
        have hm : runRandomRange low high m = (reply, { m with generator }) :=
          hrun m.input m.output
        rw [hm]
        exact hrun r m.output
      · rfl
  | toDouble | toText | print | printLine | host _ => rfl

/-- The answer to a line that was taken: nil if there is none, else its text without the line end,
or an error if it is no text. -/
def answerTo (line : List UInt8) : Except Fault Value :=
  if line = [] then .ok .nil
  else
    match decodeText? line with
    | some text => .ok (.string (chompLine text))
    | none => .error (.io invalidTextWords)

/-- The answer to a line tells whether there was one and whether it is text. -/
theorem lineAnswer_lineReply (line : List UInt8) :
    lineAnswer (Reader.lineReply none line) = answerTo line := by
  unfold Reader.lineReply answerTo
  by_cases hline : line = []
  · simp [hline, lineAnswer]
  · simp only [List.isEmpty_iff, if_neg hline]
    cases decodeText? line <;> rfl

/-- Only one native function touches the input. -/
theorem input_run {op : Native} (hop : op ≠ .readLine) (args : List Value) (m : Machine) :
    (op.run args m).2.input = m.input :=
  congrArg (fun reply => reply.2.input) (run_withInput hop args m m.input)

end Native

/-- No native function notices whether the bytes of its reader were fetched already. -/
theorem refits_held : Refits fun devices => (devices.1.held, devices.2) := by
  intro op args m
  show op.run args { m with input := m.input.held } = _
  by_cases hop : op = .readLine
  · subst hop
    rw [Native.run_readLine, Native.run_readLine, Reader.readLine_held]
    rfl
  · rw [Native.run_withInput hop]
    show _ = ((op.run args m).1, { (op.run args m).2 with input := (op.run args m).2.input.held })
    rw [Native.input_run hop]

/-! ### What runs leave of the input -/

/-- Reading does not fail by itself, and a reader that fetches byte by byte holds nothing back. -/
def readingUpkeep : Upkeep where
  Ready m := m.input.failure = none
  Change m m₁ := m₁.input.failure = none ∧ (m.input.Idle → m₁.input.Idle)
  Holds _ _ := True
  Evals _ := True
  Runs _ := True

/-- The upkeep is respected by all small steps. Only reading has to be looked at. -/
theorem readingUpkeep_lawful : readingUpkeep.Lawful where
  refl h := ⟨h, id⟩
  trans h h' := ⟨h'.1, fun hidle => h'.2 (h.2 hidle)⟩
  ready h := h.1
  holds _ _ := trivial
  holds_enter _ := trivial
  parts_evals _ _ := trivial
  parts_runs _ _ := trivial
  exprs_evals _ _ := trivial
  body_runs _ _ := trivial
  note _ h := ⟨h, id⟩
  native {m} op args h _ := by
    by_cases hop : op = .readLine
    · subst hop
      rw [Native.run_readLine]
      obtain ⟨-, buffer, source, hnext⟩ := m.input.takeLine_spec []
      refine ⟨?_, fun hidle => hidle.readLine⟩
      show m.input.readLine.2.failure = none
      rw [Reader.readLine_eq, hnext]
      exact h
    · have hinput := Native.input_run hop args m
      exact ⟨hinput ▸ h, fun hidle => hinput ▸ hidle⟩
  get _ _ := trivial
  assign _ h _ _ := ⟨h, id⟩
  declare _ h _ := ⟨h, id⟩
  function _ h := ⟨h, id⟩
  block h := h
  call h _ _ := h
  leave _ h := h

/-- The line that is taken when something is set about, if it is a call that reads. -/
def Work.line? (moment : Work × Machine) : Option (List UInt8) :=
  match moment.1.native? with
  | some (.readLine, _) => some (cutLine moment.2.input.pending).1
  | _ => none

/-- Where no line is read, none is taken. -/
theorem Work.line?_of_ne {work : Work} {m : Machine} {op : Native} {args : List Value}
    (hnative : work.native? = some (op, args)) (hop : op ≠ .readLine) :
    Work.line? (work, m) = none := by
  unfold Work.line?
  rw [hnative]
  cases op with
  | readLine => exact absurd rfl hop
  | _ => rfl

/-- All bytes that were taken in a course. -/
def Work.taken (course : List (Work × Machine)) : List UInt8 :=
  (course.filterMap Work.line?).flatten

/-- Nothing is taken in an empty course. -/
@[simp] theorem Work.taken_nil : Work.taken [] = [] := rfl

/-- What is taken in two courses, one behind the other. -/
@[simp] theorem Work.taken_append (course course' : List (Work × Machine)) :
    Work.taken (course ++ course') = Work.taken course ++ Work.taken course' := by
  simp [Work.taken]

/-- At each moment, and at the end, what was taken until then and what is pending are what was
pending at first. -/
structure Machine.Delivers (m : Machine) (course : List (Work × Machine))
    (ending : Option Machine) : Prop where
  before : ∀ {early moment late}, course = early ++ moment :: late →
    m.input.pending = Work.taken early ++ moment.2.input.pending
  after : ∀ m₁ ∈ ending, m.input.pending = Work.taken course ++ m₁.input.pending

/-- A course of one moment. -/
theorem Machine.delivers_single {m m₁ : Machine} {work : Work}
    (h : m.input.pending = Work.taken [(work, m)] ++ m₁.input.pending) :
    m.Delivers [(work, m)] (some m₁) where
  before {early moment late} hcourse := by
    rcases early with _ | ⟨first, early⟩
    · obtain ⟨rfl, -⟩ := List.cons.inj hcourse
      rfl
    · simp at hcourse
  after := by
    rintro _ ⟨⟩
    exact h

/-- What was taken and what is pending add up across two courses. -/
theorem Machine.Delivers.trans {m m₁ : Machine} {course course' : List (Work × Machine)}
    {ending : Option Machine} (h : m.Delivers course (some m₁))
    (h' : m₁.Delivers course' ending) : m.Delivers (course ++ course') ending where
  before {early moment late} hsplit := by
    rcases List.append_eq_append_iff.1 hsplit with ⟨mid, hearly, hcourse'⟩ | ⟨mid, hcourse, hlate⟩
    · -- The moment is one of the second course.
      rw [h.after m₁ rfl, h'.before hcourse', hearly, Work.taken_append, List.append_assoc]
    · rcases mid with _ | ⟨first, mid⟩
      · -- It is the first one of the second course.
        have hfirst : course' = [] ++ moment :: late := hlate.symm
        rw [List.append_nil] at hcourse
        rw [h.after m₁ rfl, h'.before hfirst, hcourse]
        rfl
      · obtain ⟨rfl, -⟩ := List.cons.inj hlate
        exact h.before hcourse
  after m₂ hm₂ := by
    rw [h.after m₁ rfl, h'.after m₂ hm₂, Work.taken_append, List.append_assoc]

/-- Watching deliveries: each small step takes what the next line is, or nothing. -/
theorem deliveryWatch : placeUpkeep.Watch Machine.Delivers where
  trans h h' := h.trans h'
  starved h := ⟨h.before, fun _ hm₁ => nomatch hm₁⟩
  silent {m m₁} _ _ hdevices := by
    have hinput : m₁.input = m.input := congrArg Prod.fst hdevices
    refine ⟨fun hcourse => by simp at hcourse, ?_⟩
    rintro _ ⟨⟩
    simp [hinput]
  start {m work} _ _ hnative := by
    refine Machine.delivers_single ?_
    simp [Work.taken, Work.line?, hnative]
  native {m work op args} _ _ hnative := by
    refine Machine.delivers_single ?_
    by_cases hop : op = .readLine
    · subst hop
      have hcut := cutLine_append m.input.pending
      rw [Native.run_readLine]
      show _ = _ ++ m.input.readLine.2.pending
      rw [Reader.readLine_eq, Reader.pending_takeLine]
      simp [Work.taken, Work.line?, hnative, hcut]
    · rw [Native.input_run hop]
      simp [Work.taken, Work.line?_of_ne hnative hop]
  inside := by
    intro m parent params args course ending _ _ h
    refine ⟨h.before, fun m₁ hm₁ => ?_⟩
    obtain ⟨m₂, hm₂, rfl⟩ := Option.map_eq_some_iff.1 hm₁
    exact h.after m₂ hm₂

/-! ### Sources -/

namespace Session

variable (s : Session) (n : Nat) (source : String)

/-- The same for a source, whether it is run to its end or given up. -/
theorem delivers_course : s.machine.Delivers (s.course n source) (s.ending? n source) :=
  deliveryWatch.source_sees placeUpkeep_lawful n source trivial fun _ _ => trivial

/-- The lines that a source takes from the input, in the order of the calls. A source that is given
up takes none. -/
def deliveries : List (List UInt8) :=
  match s.ending? n source with
  | none => []
  | some _ => (s.course n source).filterMap Work.line?

/-- What a source takes from the input, and what it leaves, is what was pending. -/
theorem deliveries_append_pending :
    s.machine.input.pending
      = (s.deliveries n source).flatten ++ (s.eval n source).2.machine.input.pending := by
  have hdelivers := s.delivers_course n source
  unfold deliveries
  cases hending : s.ending? n source with
  | none =>
      rw [machine_of_ending?_none hending]
      rfl
  | some m =>
      rw [machine_of_ending? hending]
      exact hdelivers.after m hending

/-- While a source runs, each call that reads takes the next line of what was pending at first,
behind the lines that were taken before, answers it, and leaves what is behind it. -/
def ReadsInTurn : Prop :=
  ∀ early moment late args, s.course n source = early ++ moment :: late →
    moment.1.native? = some (.readLine, args) →
    ∃ line rest, Work.line? moment = some line ∧
      s.machine.input.pending = Work.taken early ++ (line ++ rest) ∧
      NextLine (line ++ rest) line rest ∧
      (Native.readLine.run args moment.2).1 = Native.answerTo line ∧
      (Native.readLine.run args moment.2).2.input.pending = rest

/-- Each call of a source that reads is answered by the line behind those that were taken before
it. -/
theorem readsInTurn (h : s.machine.input.failure = none) : s.ReadsInTurn n source := by
  intro early moment late args hcourse hcall
  have hready : ∀ moment ∈ s.course n source, moment.2.input.failure = none :=
    readingUpkeep.readyWatch.source_sees readingUpkeep_lawful n source h fun _ _ => trivial
  have hfailure : moment.2.input.failure = none := hready moment (by rw [hcourse]; simp)
  have hbefore := (s.delivers_course n source).before hcourse
  obtain ⟨hpending, hline⟩ := nextLine_cutLine moment.2.input.pending
  have hread := Reader.readLine_eq moment.2.input
  rw [hfailure] at hread
  refine ⟨_, _, ?_, ?_, ⟨rfl, hline⟩, ?_, ?_⟩
  · simp [Work.line?, hcall]
  · rw [← hpending]
    exact hbefore
  · rw [Native.run_readLine, hread]
    exact Native.lineAnswer_lineReply _
  · rw [Native.run_readLine, hread]
    exact Reader.pending_takeLine moment.2.input []

end Session

end Scriptlet
