import Mathlib.Data.List.Induction
import Scriptlet.Proofs.Run.Calls
import Scriptlet.Proofs.Run.Delivery
import Scriptlet.Run.SplitMix

/-!
# `Scriptlet.Proofs.Session.Lines`: the input of a session, line by line

Calls that read are spread over all that a session is asked: there may be many in one run, runs may
fail behind them or never end, and sources with errors in them come in between. The calls take the
lines of the input one after the other all the same.

* `InLines`: bytes, cut behind each line end. This can be done in one way only.
* `Session.courses`: what is set about in some steps. What is taken there, and what the steps leave,
  is what was pending at first (`Session.delivers_courses`).
* `Machine.Delivers.taken_eq`: what was taken until some moment are as many lines as there were
  calls that read.
* `Reads`: what a call answers that reads a line or finds none.
* `calls_read_line_by_line`: the call with number `k` reads the line with number `k`.
-/

set_option autoImplicit false

namespace Scriptlet

/-! ### Bytes in lines -/

/-- The bytes, cut behind each line end. Only the last line may lack its end, and no line is
empty. -/
structure InLines (bytes : List UInt8) (lines : List (List UInt8)) : Prop where
  flatten : lines.flatten = bytes
  ne_nil : ∀ line ∈ lines, line ≠ []
  inner : ∀ line ∈ lines, newlineByte ∉ line.dropLast
  ended : ∀ line ∈ lines.dropLast, line.getLast? = some newlineByte

namespace InLines

variable {bytes : List UInt8} {lines : List (List UInt8)}

/-- The first line is what a reader takes first. -/
theorem cutLine_eq (h : InLines bytes lines) :
    cutLine bytes = (lines.head?.getD [], lines.tail.flatten) := by
  rw [← h.flatten]
  cases lines with
  | nil => rfl
  | cons line later =>
      obtain ⟨front, b, rfl⟩ := (List.eq_nil_or_concat' line).resolve_left
        (h.ne_nil line List.mem_cons_self)
      have hfront : newlineByte ∉ front := by simpa using h.inner _ List.mem_cons_self
      refine nextLine_iff.1 ⟨rfl, ?_⟩
      -- The last line may lack its end. All others have theirs.
      cases later with
      | nil =>
          by_cases hb : b = newlineByte
          · exact .inl ⟨front, by rw [hb]; rfl, hfront⟩
          · exact .inr ⟨by simp [hfront, Ne.symm hb], rfl⟩
      | cons next later =>
          have hb : b = newlineByte := by simpa using h.ended (front ++ [b]) (by simp)
          exact .inl ⟨front, by rw [hb]; rfl, hfront⟩

/-- Without the first line, the other ones are in lines. -/
theorem tail (h : InLines bytes lines) : InLines lines.tail.flatten lines.tail where
  flatten := rfl
  ne_nil line hline := h.ne_nil line (List.mem_of_mem_tail hline)
  inner line hline := h.inner line (List.mem_of_mem_tail hline)
  ended line hline := by
    refine h.ended line ?_
    cases lines with
    | nil => exact hline
    | cons first later =>
        cases later with
        | nil => cases hline
        | cons next later => exact List.mem_cons_of_mem first hline

/-- What is left behind some lines is in lines too. -/
theorem drop (h : InLines bytes lines) (k : Nat) :
    InLines (lines.drop k).flatten (lines.drop k) := by
  induction k with
  | zero =>
      rw [List.drop_zero, h.flatten]
      exact h
  | succ k ih =>
      rw [← List.tail_drop]
      exact ih.tail

/-- Behind `k` lines, a reader takes the next one. -/
theorem cutLine_drop (h : InLines bytes lines) (k : Nat) :
    cutLine (lines.drop k).flatten = (lines[k]?.getD [], (lines.drop (k + 1)).flatten) := by
  rw [(h.drop k).cutLine_eq, List.head?_drop, List.tail_drop]

/-- Behind `k` lines are the others. -/
theorem rest_eq {rest : List UInt8} {k : Nat}
    (h : InLines ((lines.take k).flatten ++ rest) lines) : rest = (lines.drop k).flatten := by
  have hall : (lines.take k).flatten ++ (lines.drop k).flatten = lines.flatten := by
    rw [← List.flatten_append, List.take_append_drop]
  exact List.append_cancel_left (h.flatten.symm.trans hall.symm)

/-- There are no lines exactly if there are no bytes. -/
theorem nil_iff (h : InLines bytes lines) : lines = [] ↔ bytes = [] := by
  rw [← h.flatten, List.flatten_eq_nil_iff]
  constructor
  · rintro rfl
    simp
  · intro hnil
    exact List.eq_nil_iff_forall_not_mem.2 fun line hline => h.ne_nil line hline (hnil line hline)

/-- Bytes are in lines in one way only. -/
theorem unique (h : InLines bytes lines) {others : List (List UInt8)} (h' : InLines bytes others) :
    others = lines := by
  induction lines generalizing bytes others with
  | nil => exact h'.nil_iff.2 (h.nil_iff.1 rfl)
  | cons line lines ih =>
      have hbytes : bytes ≠ [] := fun hnil => nomatch h.nil_iff.2 hnil
      obtain ⟨other, others, rfl⟩ := List.exists_cons_of_ne_nil fun hnil =>
        hbytes (h'.nil_iff.1 hnil)
      obtain ⟨hhead, hlater⟩ := Prod.mk.inj (h.cutLine_eq.symm.trans h'.cutLine_eq)
      have htail : InLines lines.flatten others := hlater ▸ h'.tail
      rw [ih h.tail htail]
      exact congrArg (· :: lines) hhead.symm

/-- One more line in front. -/
theorem cons {line rest : List UInt8} (hnext : NextLine bytes line rest) (hline : line ≠ [])
    (h : InLines rest lines) : InLines bytes (line :: lines) := by
  obtain ⟨rfl, hends⟩ := hnext
  constructor
  case flatten => rw [List.flatten_cons, h.flatten]
  case ne_nil => exact List.forall_mem_cons.2 ⟨hline, h.ne_nil⟩
  case inner =>
    refine List.forall_mem_cons.2 ⟨?_, h.inner⟩
    obtain ⟨front, rfl, hfront⟩ | ⟨hnot, -⟩ := hends
    · simpa using hfront
    · exact fun hmem => hnot (List.dropLast_subset line hmem)
  case ended =>
    -- A line without its end has nothing behind it.
    cases lines with
    | nil => exact nofun
    | cons next later =>
        refine List.forall_mem_cons.2 ⟨?_, h.ended⟩
        obtain ⟨front, rfl, -⟩ | ⟨-, rfl⟩ := hends
        · simp
        · cases h.nil_iff.2 rfl

/-- Bytes can be cut behind each line end. The induction takes one line at a time, as a reader
does. -/
theorem exists_of_bytes : ∀ bytes : List UInt8, ∃ lines, InLines bytes lines
  | [] => ⟨[], rfl, nofun, nofun, nofun⟩
  | b :: bytes => by
    have hne : (cutLine (b :: bytes)).1 ≠ [] := cutLine_ne_nil (List.cons_ne_nil b bytes)
    have hshorter : (cutLine (b :: bytes)).2.length < (b :: bytes).length := by
      have hlength := congrArg List.length (cutLine_append (b :: bytes))
      have hpos := List.length_pos_iff.2 hne
      rw [List.length_append] at hlength
      omega
    obtain ⟨lines, hlines⟩ := exists_of_bytes (cutLine (b :: bytes)).2
    exact ⟨_, .cons (nextLine_cutLine (b :: bytes)) hne hlines⟩
  termination_by bytes => bytes.length
  decreasing_by exact hshorter

end InLines

/-! ### Calls that read -/

/-- Whether something is set about that reads a line. -/
def Work.isReading (work : Work) : Bool :=
  match work.native? with
  | some (.readLine, _) => true
  | _ => false

/-- The calls that read a line in a course. -/
def Work.readings (course : List (Work × Machine)) : List (Work × Machine) :=
  course.filter (·.1.isReading)

/-- The calls that read in two courses, one behind the other. -/
@[simp] theorem Work.readings_append (course later : List (Work × Machine)) :
    readings (course ++ later) = readings course ++ readings later :=
  List.filter_append ..

/-- Something that reads a line is a call of the function for it. -/
theorem Work.exists_of_isReading {work : Work} (h : work.isReading = true) :
    ∃ identity name arity paren args,
      work = .invoke ⟨identity, .native name arity .readLine⟩ paren args := by
  unfold isReading at h
  split at h
  case h_1 args hnative =>
    unfold native? at hnative
    split at hnative
    · obtain ⟨rfl, -⟩ := Prod.mk.inj (Option.some.inj hnative)
      exact ⟨_, _, _, _, _, rfl⟩
    · cases hnative
  case h_2 => cases h

/-- What is taken at a moment is the next line, if a line is read there, and else nothing. -/
theorem Work.line?_eq (moment : Work × Machine) : line? moment =
    if moment.1.isReading then some (cutLine moment.2.input.pending).1 else none := by
  unfold line? isReading
  cases moment.1.native? with
  | none => rfl
  | some call =>
      obtain ⟨op, args⟩ := call
      cases op <;> rfl

/-- What was taken in a course are as many lines of the input as there were calls that read. -/
theorem Machine.Delivers.taken_eq {m : Machine} {course : List (Work × Machine)}
    {ending : Option Machine} (h : m.Delivers course ending) {lines : List (List UInt8)}
    (hlines : InLines m.input.pending lines) {early : List (Work × Machine)} :
    ∀ {late}, course = early ++ late →
      Work.taken early = (lines.take (Work.readings early).length).flatten := by
  induction early using List.reverseRecOn with
  | nil => exact fun _ => rfl
  | append_singleton early moment ih =>
      intro late hcourse
      rw [List.append_assoc] at hcourse
      have hearly := ih hcourse
      rw [Work.taken_append, Work.readings_append, List.length_append]
      by_cases hreads : moment.1.isReading = true
      · -- The call takes the first one of the lines that are left.
        rw [h.before hcourse, hearly] at hlines
        have hcut := hlines.cutLine_drop (Work.readings early).length
        rw [← hlines.rest_eq] at hcut
        have hline : Work.taken [moment] = lines[(Work.readings early).length]?.getD [] := by
          simp [Work.taken, Work.line?_eq, hreads, hcut]
        have hone : Work.readings [moment] = [moment] := by simp [Work.readings, hreads]
        rw [hearly, hline, hone, List.length_singleton, List.take_add_one, List.flatten_append]
        cases lines[(Work.readings early).length]? <;> simp
      · have hnone : Work.readings [moment] = [] := by simp [Work.readings, hreads]
        have hline : Work.taken [moment] = [] := by simp [Work.taken, Work.line?_eq, hreads]
        rw [hnone, hline, hearly, List.length_nil, Nat.add_zero, List.append_nil]

/-- One of the calls that read, and what was set about before it. -/
theorem Work.split_of_readings {course : List (Work × Machine)} {k : Nat}
    {moment : Work × Machine} (h : (readings course)[k]? = some moment) :
    ∃ early late, course = early ++ moment :: late ∧ (readings early).length = k ∧
      moment.1.isReading = true := by
  obtain ⟨hk, hmoment⟩ := List.getElem?_eq_some_iff.1 h
  have hsplit : course.filter (·.1.isReading)
      = (readings course).take k ++ moment :: (readings course).drop (k + 1) := by
    rw [← hmoment, ← List.drop_eq_getElem_cons hk, List.take_append_drop]
    rfl
  obtain ⟨early, rest, rfl, hearly, hrest⟩ := List.filter_eq_append_iff.1 hsplit
  obtain ⟨between, late, rfl, hbetween, hreads, -⟩ := List.filter_eq_cons_iff.1 hrest
  refine ⟨early ++ between, late, by simp, ?_, hreads⟩
  have hnone : readings between = [] := List.filter_eq_nil_iff.2 hbetween
  rw [readings_append, hnone, List.append_nil, readings, hearly, List.length_take]
  omega

/-- The input is all that counts at the end. -/
theorem Machine.Delivers.of_input {m m₁ m₂ : Machine} {course : List (Work × Machine)}
    (h : m.Delivers course (some m₁)) (hinput : m₂.input = m₁.input) :
    m.Delivers course (some m₂) := by
  refine ⟨h.before, ?_⟩
  rintro _ ⟨⟩
  rw [hinput]
  exact h.after m₁ rfl

/-- Where nothing is set about, nothing is taken. -/
theorem Machine.delivers_nil {m m₁ : Machine} (hinput : m₁.input = m.input) :
    m.Delivers [] (some m₁) := by
  refine ⟨fun hcourse => by simp at hcourse, ?_⟩
  rintro _ ⟨⟩
  rw [hinput]
  rfl

/-! ### Sessions -/

namespace Session

/-- What is set about in a step. A step that is given up is as if it had not been. -/
def settled (s : Session) (n : Nat) (step : Step) : List (Work × Machine) :=
  step.source?.elim [] fun source =>
    if (s.ending? n source).isSome then s.course n source else []

/-- What is set about in some steps, in the order of time. -/
def courses (s : Session) : List (Nat × Step) → List (Work × Machine)
  | [] => []
  | (n, step) :: steps => s.settled n step ++ courses (s.perform n step).2 steps

/-- A step that asks for no source leaves the input alone. -/
theorem input_perform (s : Session) (n : Nat) (step : Step) :
    (s.perform n step).2.machine.input
      = step.source?.elim s.machine.input fun source => (s.eval n source).2.machine.input := by
  show (s.act n step).2.machine.input = _
  cases step with
  | reader reader =>
      show (s.evalReader n reader).2.machine.input = _
      simp only [evalReader, Step.source?]
      cases reader.readAll <;> rfl
  | eval | seed | native | debug => rfl

/-- What a step takes, and what it leaves, is what was pending. -/
theorem delivers_settled (s : Session) (n : Nat) (step : Step) :
    s.machine.Delivers (s.settled n step) (some (s.perform n step).2.machine) := by
  have hinput := s.input_perform n step
  unfold settled
  cases hsource : step.source? with
  | none =>
      rw [hsource] at hinput
      exact Machine.delivers_nil hinput
  | some source =>
      rw [hsource] at hinput
      have hdelivers := s.delivers_course n source
      -- A run that is given up leaves the session as it was, so that nothing counts as taken.
      cases hending : s.ending? n source with
      | none =>
          rw [Option.elim_some, machine_of_ending?_none hending] at hinput
          have hleft : (s.perform n step).2.machine.input = s.machine.input := hinput
          simpa [hending] using Machine.delivers_nil hleft
      | some m =>
          rw [Option.elim_some, machine_of_ending? hending] at hinput
          rw [hending] at hdelivers
          simpa [hending] using hdelivers.of_input hinput

/-- What is taken in some steps, and what they leave, is what was pending. -/
theorem delivers_courses (s : Session) (steps : List (Nat × Step)) :
    s.machine.Delivers (s.courses steps) (some (s.after steps).machine) := by
  induction steps generalizing s with
  | nil => exact Machine.delivers_nil rfl
  | cons asked steps ih => exact (s.delivers_settled asked.1 asked.2).trans (ih _)

/-- No step makes reading fail. -/
theorem failure_perform {s : Session} (h : s.machine.input.failure = none) (n : Nat)
    (step : Step) : (s.perform n step).2.machine.input.failure = none := by
  rw [input_perform]
  cases step.source? with
  | none => exact h
  | some source => exact (readingUpkeep_lawful.source n source h fun _ _ => trivial).1

/-- Nor do several steps. -/
theorem failure_after {s : Session} (h : s.machine.input.failure = none)
    (steps : List (Nat × Step)) : (s.after steps).machine.input.failure = none := by
  induction steps generalizing s with
  | nil => exact h
  | cons asked steps ih => exact ih (failure_perform h asked.1 asked.2)

/-- What holds of the courses of all sources, and of two rows behind each other, holds of what is
set about in some steps. -/
theorem courses_induction {motive : List (Work × Machine) → Prop} (hnil : motive [])
    (happend : ∀ {course later}, motive course → motive later → motive (course ++ later))
    (hcourse : ∀ {s : Session}, s.machine.input.failure = none → ∀ n source,
      motive (s.course n source))
    {s : Session} (h : s.machine.input.failure = none) (steps : List (Nat × Step)) :
    motive (s.courses steps) := by
  induction steps generalizing s with
  | nil => exact hnil
  | cons asked steps ih =>
      refine happend ?_ (ih (failure_perform h asked.1 asked.2))
      unfold settled
      cases asked.2.source? with
      | none => exact hnil
      | some source =>
          rw [Option.elim_some]
          split
          · exact hcourse h asked.1 source
          · exact hnil

/-- All moments in the course of a source find a reader that does not fail. -/
theorem ready_course {s : Session} (h : s.machine.input.failure = none) (n : Nat)
    (source : String) : ∀ moment ∈ s.course n source, moment.2.input.failure = none :=
  readingUpkeep.readyWatch.source_sees readingUpkeep_lawful n source h fun _ _ => trivial

/-- So do all moments in the courses of several steps. -/
theorem ready_courses {s : Session} (h : s.machine.input.failure = none)
    (steps : List (Nat × Step)) :
    ∀ moment ∈ s.courses steps, moment.2.input.failure = none :=
  courses_induction (motive := fun course => ∀ moment ∈ course, moment.2.input.failure = none)
    (List.forall_mem_nil _) (fun h h' => List.forall_mem_append.2 ⟨h, h'⟩) ready_course h steps

/-- Every reading in the courses is a call of a native function. -/
theorem calls_courses {s : Session} (h : s.machine.input.failure = none)
    (steps : List (Nat × Step)) : Work.Calls (s.courses steps) :=
  courses_induction Work.calls_nil .append (fun {s} _ => s.calls_course) h steps

end Session

/-! ### Answers -/

/-- The line is the text without the characters at its end that end lines. -/
def Chomped (text line : String) : Prop :=
  ∃ ends : String, text = line ++ ends ∧ (∀ c ∈ ends.toList, c = '\n' ∨ c = '\r') ∧
    ∀ c ∈ line.toList.getLast?, c ≠ '\n' ∧ c ≠ '\r'

/-- What a call gives back of a line is the line without its end. -/
theorem chomped_chompLine (text : String) : Chomped text (Native.chompLine text) := by
  let ends (c : Char) : Bool := c == '\n' || c == '\r'
  have hline : (Native.chompLine text).toList = (text.toList.reverse.dropWhile ends).reverse :=
    String.toList_ofList
  refine ⟨String.ofList (text.toList.reverse.takeWhile ends).reverse, ?_, ?_, ?_⟩
  · rw [← String.toList_inj, String.toList_append, hline, String.toList_ofList,
      ← List.reverse_append, List.takeWhile_append_dropWhile, List.reverse_reverse]
  · intro c hc
    rw [String.toList_ofList, List.mem_reverse] at hc
    simpa [ends] using List.all_eq_true.1 List.all_takeWhile c hc
  · intro c hc
    rw [hline, List.getLast?_reverse] at hc
    have hnot := List.head?_dropWhile_not ends text.toList.reverse
    rw [hc] at hnot
    simpa [ends] using hnot

/-- What a call comes to that reads this line, or finds none, and leaves the machine `m`: the text
of the line without its end, or nil, or an error at its parenthesis if the line is no text. -/
inductive Reads (paren : Token) (m : Machine) : Option (List UInt8) → Outcome Value → Prop where
  | nothing : Reads paren m none (.done .nil m)
  | text {bytes : List UInt8} {text line : String} :
      decodeText? bytes = some text → Chomped text line →
      Reads paren m (some bytes) (.done (.string line) m)
  | broken {bytes : List UInt8} : decodeText? bytes = none →
      Reads paren m (some bytes) (.failed ⟨paren, .io invalidTextWords⟩ m)

/-- The answer to a line that is there, and to none. -/
theorem reads_answerTo {paren : Token} {m : Machine} {line? : Option (List UInt8)}
    (hne : ∀ line ∈ line?, line ≠ []) :
    Reads paren m line? (.ofExcept paren (Native.answerTo (line?.getD [])) m) := by
  cases line? with
  | none => exact .nothing
  | some line =>
      unfold Native.answerTo
      rw [Option.getD_some, if_neg (hne line rfl)]
      cases htext : decodeText? line with
      | none => exact .broken htext
      | some text => exact .text htext (chomped_chompLine text)

/-- A call reads the first line of what is pending. -/
theorem reads_invoke {identity : Nat} {name : String} {arity : Nat} {paren : Token}
    {args : List Value} {m : Machine} (hfailure : m.input.failure = none)
    {lines : List (List UInt8)} (h : InLines m.input.pending lines) :
    ∃ m₁, m₁.input.pending = lines.tail.flatten ∧ ∀ n,
      Reads paren m₁ lines.head?
        (invoke (n + 1) ⟨identity, .native name arity .readLine⟩ paren args m) := by
  have hread := Reader.readLine_eq m.input
  rw [hfailure, h.cutLine_eq] at hread
  refine ⟨{ m with input := m.input.readLine.2 }, ?_, fun n => ?_⟩
  · show m.input.readLine.2.pending = _
    rw [hread, Reader.pending_takeLine, h.cutLine_eq]
  · show Reads paren _ _ (.ofExcept paren (Native.readLine.run args m).1
      (Native.readLine.run args m).2)
    rw [Native.run_readLine, hread, Native.lineAnswer_lineReply]
    exact reads_answerTo fun line hline => h.ne_nil line (List.mem_of_mem_head? hline)

/-! ### The input of a session -/

/-- **Calls that read walk through the input line by line.** Let reading not fail by itself. The
bytes that can be read are in lines in one way only. Take any steps, whatever they run and in
whatever errors they end, and then the run of any source, finished or not. The call that is number
`k` among those that read, counted from the first step on, finds the lines from number `k` on, and
leaves those behind it. It answers line number `k`: with its text without the line end, or with an
error at the parenthesis that closes the call if it is no text, or with nil if there is no such
line. Nothing but these calls takes any of the input. -/
theorem calls_read_line_by_line {s : Session} (h : s.machine.input.failure = none)
    (steps : List (Nat × Session.Step)) (n : Nat) (source : String) :
    ∃ lines, InLines s.machine.input.pending lines ∧
      (∀ others, InLines s.machine.input.pending others → others = lines) ∧
      let course := s.courses steps ++ (s.after steps).course n source
      (∀ k moment, (Work.readings course)[k]? = some moment →
        ∃ f paren args m₁, moment.1 = .invoke f paren args ∧
          moment.2.input.pending = (lines.drop k).flatten ∧
          m₁.input.pending = (lines.drop (k + 1)).flatten ∧
          (∀ supply, Reads paren m₁ lines[k]? (invoke (supply + 1) f paren args moment.2)) ∧
          Work.Placed course f paren args moment.2) ∧
      (s.after steps).machine.input.pending
        = (lines.drop (Work.readings (s.courses steps)).length).flatten := by
  obtain ⟨lines, hlines⟩ := InLines.exists_of_bytes s.machine.input.pending
  refine ⟨lines, hlines, fun others => hlines.unique, ?_⟩
  intro course
  have hafter := Session.failure_after h steps
  have hbefore := s.delivers_courses steps
  constructor
  case right =>
    have htaken := hbefore.taken_eq hlines (List.append_nil _).symm
    rw [hbefore.after _ rfl, htaken] at hlines
    exact hlines.rest_eq
  case left =>
    -- What was taken before this call are as many lines as calls that read came before it.
    intro k moment hmoment
    obtain ⟨early, late, hcourse, rfl, hreads⟩ := Work.split_of_readings hmoment
    have hdelivers := hbefore.trans ((s.after steps).delivers_course n source)
    have htaken := hdelivers.taken_eq hlines hcourse
    have hmem : moment ∈ course := by
      rw [hcourse]
      simp
    have hfailure : ∀ moment ∈ course, moment.2.input.failure = none :=
      List.forall_mem_append.2
        ⟨Session.ready_courses h steps, Session.ready_course hafter n source⟩
    have hcalls : Work.Calls course :=
      (Session.calls_courses h steps).append ((s.after steps).calls_course n source)
    have hpending : moment.2.input.pending = (lines.drop (Work.readings early).length).flatten := by
      rw [hdelivers.before hcourse, htaken] at hlines
      exact hlines.rest_eq
    obtain ⟨work, m⟩ := moment
    obtain ⟨identity, name, arity, paren, args, rfl⟩ := Work.exists_of_isReading hreads
    have hrest : InLines m.input.pending (lines.drop (Work.readings early).length) := by
      rw [show m.input.pending = _ from hpending]
      exact hlines.drop _
    obtain ⟨m₁, hm₁, hreply⟩ := reads_invoke (hfailure _ hmem) hrest
    rw [List.tail_drop] at hm₁
    refine ⟨_, _, _, m₁, rfl, hpending, hm₁, fun supply => ?_, hcalls _ _ _ _ hmem⟩
    rw [← List.head?_drop]
    exact hreply supply

/-- A line with a carriage return, a line that is no text, an empty line, and one without a line
end. They are read in spite of a run-time error behind the first one, a source with an error in it,
and the error of the second call. The fifth call finds no line, in a run that does not end. -/
theorem calls_read_line_by_line_errors :
    let lines : List (List UInt8) := [[97, 13, 10], [255, 10], [10], [122]]
    let s := Session.start (.new 0) (.ofBytes lines.flatten none) (.empty none)
      (.splitMix 0) (.steady (.ok 0))
    let steps : List (Nat × Session.Step) := [(20, .eval "var a = read_line(); a - 1;"),
      (20, .eval "var b = ;"), (20, .eval "while (true) { print(read_line()); }"), (20, .seed 7)]
    let source := "while (true) read_line();"
    let course := s.courses steps ++ (s.after steps).course 20 source
    5 ≤ (Work.readings course).length ∧
      ∀ k moment, (Work.readings course)[k]? = some moment →
        ∃ f paren args m₁, moment.1 = .invoke f paren args ∧
          moment.2.input.pending = (lines.drop k).flatten ∧
          m₁.input.pending = (lines.drop (k + 1)).flatten ∧
          (∀ supply, Reads paren m₁ lines[k]? (invoke (supply + 1) f paren args moment.2)) ∧
          Work.Placed course f paren args moment.2 := by
  intro lines s steps source course
  have hfailure : s.machine.input.failure = none := by decide +kernel
  have hlines : InLines s.machine.input.pending lines :=
    ⟨by decide +kernel, by decide, by decide, by decide⟩
  obtain ⟨others, -, hunique, hcalls, -⟩ := calls_read_line_by_line hfailure steps 20 source
  obtain rfl := hunique lines hlines
  exact ⟨by decide +kernel, hcalls⟩

end Scriptlet
