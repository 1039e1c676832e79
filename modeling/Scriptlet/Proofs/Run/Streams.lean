import Scriptlet.Proofs.Run.Delivery
import Scriptlet.Run.SplitMix

/-!
# `Scriptlet.Proofs.Run.Streams`: output grows at its end, input is used from its front

What a program prints comes behind what is there already, and does not depend on it. What it reads
it takes from the front of the input, line by line. As long as each of its reads finds a line end,
it knows nothing of what is behind the last line that it took: any other bytes may be there, and it
does the same and leaves them.

* `refits_ahead`: no native function notices what was printed before.
* `Reader.readLine_swap`: nor does a read that finds a line end notice what is behind the line.
* `runs_use_streams_in_turn`: so programs do not, however their run ends.
-/

set_option autoImplicit false

namespace Scriptlet

/-! ### What was printed before -/

/-- The machine with these bytes as its output. -/
def Machine.withPrinted (m : Machine) (bytes : ByteArray) : Machine :=
  { m with output := { m.output with bytes } }

namespace Sink

/-- The sink with more bytes ahead of those that are in it. -/
def ahead (bytes : ByteArray) (s : Sink) : Sink := { s with bytes := bytes ++ s.bytes }

/-- Writing adds at the end, so bytes in front stay in front. -/
theorem write_ahead (bytes : ByteArray) (s : Sink) (text : String) :
    (s.ahead bytes).write text = (s.write text).ahead bytes := by
  unfold ahead write
  cases s.room with
  | none => simp [ByteArray.append_assoc]
  | some room => simp [ByteArray.append_assoc]

/-- Whether a text fits does not depend on what is there. -/
theorem fits_ahead (bytes : ByteArray) (s : Sink) (text : String) :
    (s.ahead bytes).fits text = s.fits text := rfl

end Sink

/-- A native function that writes does not notice what is in front. -/
theorem Native.runWrite_ahead (bytes : ByteArray) (text : String) (m : Machine) :
    runWrite text { m with output := m.output.ahead bytes }
      = ((runWrite text m).1, { (runWrite text m).2 with
          output := (runWrite text m).2.output.ahead bytes }) := by
  unfold runWrite Machine.write
  rw [Sink.write_ahead, Sink.fits_ahead]

/-- No native function notices what was printed before. -/
theorem refits_ahead (bytes : ByteArray) :
    Refits fun devices => (devices.1, devices.2.1.ahead bytes, devices.2.2) := by
  intro op args m
  cases op with
  | clock =>
      rw [Native.Unnoticed, Native.run_clock, Native.run_clock]
      rfl
  | readLine =>
      rw [Native.Unnoticed, Native.run_readLine, Native.run_readLine]
      rfl
  | randomRangeRounded =>
      simp only [Native.Unnoticed, Native.run, Native.runRandomRangeRounded]
      split
      case h_1 low high _ _ =>
        obtain ⟨reply, generator, hrun⟩ := Native.runRandomRange_eq low high m
        have hm : Native.runRandomRange low high m = (reply, { m with generator }) :=
          hrun m.input m.output
        rw [hm]
        exact hrun m.input (m.output.ahead bytes)
      · rfl
  | print | printLine => exact Native.runWrite_ahead bytes _ m
  | toDouble | toText | host _ => rfl

/-- What a run prints comes behind what was printed before, and does not depend on it. -/
theorem exists_printed (n : Nat) (program : Program) (m : Machine) : ∃ printed : ByteArray,
    ∀ bytes, runProgram n program (m.withPrinted bytes)
      = (runProgram n program m).mapMachine (·.withPrinted (bytes ++ printed)) := by
  -- The bytes that are printed are those that are printed when nothing was printed before.
  have hrun (bytes : ByteArray) := runProgram_refit n program (m.withPrinted .empty)
    ((refits_ahead bytes).unnoticed _)
  have hfitted (bytes : ByteArray) : (m.withPrinted .empty).refit
      (fun devices => (devices.1, devices.2.1.ahead bytes, devices.2.2)) = m.withPrinted bytes := by
    show { m with output := { m.output with bytes := bytes ++ .empty } } = m.withPrinted bytes
    rw [ByteArray.append_empty]
    rfl
  simp only [hfitted] at hrun
  have hown : runProgram n program m = runProgram n program (m.withPrinted m.output.bytes) := rfl
  rw [hown]
  generalize runProgram n program (m.withPrinted .empty) = x at hrun
  simp only [hrun]
  cases x with
  | done _ m₁ => exact ⟨m₁.output.bytes, fun bytes => rfl⟩
  | failed error m₁ => exact ⟨m₁.output.bytes, fun bytes => rfl⟩
  | starved => exact ⟨.empty, fun bytes => rfl⟩

/-! ### What is behind the lines that were taken -/

/-- A line that has its line end is the first line of whatever it starts. -/
theorem cutLine_of_endsLine {bytes line rest : List UInt8} (hcut : cutLine bytes = (line, rest))
    (hends : endsLine line = true) (more : List UInt8) : cutLine (line ++ more) = (line, more) := by
  obtain ⟨-, hline | ⟨hline, -⟩⟩ := nextLine_iff.2 hcut
  · exact nextLine_iff.1 ⟨rfl, .inl hline⟩
  · exact absurd (List.mem_of_getLast? (beq_iff_eq.1 hends)) hline

namespace Reader

/-- The reader `r` in place of one that has the bytes `rest` behind those that it may deliver. It
delivers the same bytes, and has the bytes `q` behind them. -/
def swap (r : Reader) (rest q : List UInt8) (old : Reader) : Reader :=
  { r with buffer := old.pending.take (old.pending.length - rest.length) ++ q, source := [] }

/-- The reader that is put in place has the bytes `q` behind what it may deliver. -/
theorem swap_eq (r : Reader) {old : Reader} {front rest : List UInt8} (q : List UInt8)
    (h : old.pending = front ++ rest) :
    r.swap rest q old = { r with buffer := front ++ q, source := [] } := by
  have hlength : (front ++ rest).length - rest.length = front.length := by
    rw [List.length_append]
    omega
  rw [swap, h, hlength, List.take_left]

/-- A line with its line end is answered in the same way by all readers. -/
theorem lineReply_of_endsLine {line : List UInt8} (h : endsLine line = true)
    (failure failure' : Option String) : lineReply failure line = lineReply failure' line := by
  unfold lineReply
  rw [h]
  cases failure <;> cases failure' <;> rfl

/-- A read that finds a line end notices nothing of what is behind the line. -/
theorem readLine_swap (r : Reader) {old : Reader} {line more rest : List UInt8} (q : List UInt8)
    (hcut : cutLine old.pending = (line, more ++ rest)) (hends : endsLine line = true) :
    (r.swap rest q old).readLine = (old.readLine.1, r.swap rest q old.readLine.2) := by
  have hpending : old.pending = (line ++ more) ++ rest := by
    have happend := cutLine_append old.pending
    rw [hcut] at happend
    rw [← happend, List.append_assoc]
  have hnext : old.readLine.2.pending = more ++ rest := by
    rw [readLine_eq]
    show (old.takeLine []).2.pending = _
    rw [pending_takeLine, hcut]
  rw [swap_eq r q hpending, swap_eq r q hnext, readLine_eq, readLine_eq old, hcut]
  -- Nothing is left to fetch, so the line is cut from the buffer.
  have hline := cutLine_of_endsLine hcut hends (more ++ q)
  rw [← List.append_assoc] at hline
  unfold takeLine
  simp only [pending, List.append_nil, hline, hends, if_true]
  rw [lineReply_of_endsLine hends old.failure]

end Reader

/-- A call in the course met the end of the input: what it took has no line end. -/
def Work.MeetsEnd (course : List (Work × Machine)) : Prop :=
  ∃ line ∈ course.filterMap Work.line?, endsLine line = false

instance (course : List (Work × Machine)) : Decidable (Work.MeetsEnd course) :=
  inferInstanceAs (Decidable (∃ line ∈ course.filterMap Work.line?, endsLine line = false))

/-- A course meets the end in its first part or in its second one. -/
theorem Work.meetsEnd_append {course course' : List (Work × Machine)} :
    MeetsEnd (course ++ course') ↔ MeetsEnd course ∨ MeetsEnd course' := by
  simp only [MeetsEnd, List.filterMap_append, List.mem_append, or_and_right, exists_or]

/-- At the end of a course, the reader knows whether it met the end of its source, in this course or
before. -/
def Machine.NotesEnd (m : Machine) (course : List (Work × Machine)) (ending : Option Machine) :
    Prop :=
  ∀ m₁ ∈ ending, m₁.input.metEnd = true ↔ m.input.metEnd = true ∨ Work.MeetsEnd course

/-- A course of one moment. -/
theorem Machine.notesEnd_single {m m₁ : Machine} {work : Work}
    (h : m₁.input.metEnd = true ↔
      m.input.metEnd = true ∨ ∃ line ∈ Work.line? (work, m), endsLine line = false) :
    m.NotesEnd [(work, m)] (some m₁) := by
  rintro _ ⟨⟩
  cases hline : Work.line? (work, m) <;> simpa [Work.MeetsEnd, hline] using h

/-- Watching the end of the input: a reader knows that it met it exactly if one of the lines had no
end. -/
theorem endWatch : placeUpkeep.Watch Machine.NotesEnd where
  trans h h' m₂ hm₂ := by
    rw [h' m₂ hm₂, h _ rfl, or_assoc, Work.meetsEnd_append]
  starved _ _ hm₁ := nomatch hm₁
  silent {m m₁} _ _ hdevices := by
    have hinput : m₁.input = m.input := congrArg Prod.fst hdevices
    rintro _ ⟨⟩
    simp [hinput, Work.MeetsEnd]
  start _ _ hnative := Machine.notesEnd_single (by simp [Work.line?, hnative])
  native {m work op args} _ _ hnative := by
    refine Machine.notesEnd_single ?_
    by_cases hop : op = .readLine
    · subst hop
      obtain ⟨-, buffer, source, hnext⟩ := m.input.takeLine_spec []
      rw [Native.run_readLine]
      show m.input.readLine.2.metEnd = true ↔ _
      rw [Reader.readLine_eq, hnext]
      simp [Work.line?, hnative]
    · rw [Native.input_run hop]
      have hline : Work.line? (work, m) = none := Work.line?_of_ne hnative hop
      simp [hline]
  inside := by
    intro m parent params args course ending _ _ h m₁ hm₁
    obtain ⟨m₂, hm₂, rfl⟩ := Option.map_eq_some_iff.1 hm₁
    exact h m₂ hm₂

/-- A run that does not meet the end of the input does not notice what is behind the lines that it
takes. -/
theorem Machine.Delivers.unnoticed {m : Machine} {course : List (Work × Machine)}
    {ending : Option Machine} {rest : List UInt8} (h : m.Delivers course ending)
    (hrest : m.input.pending = Work.taken course ++ rest) (hend : ¬ Work.MeetsEnd course)
    (r : Reader) (q : List UInt8) :
    Work.Unnoticed (fun devices => (r.swap rest q devices.1, devices.2)) course := by
  intro moment hmoment op args hcall
  show op.run args { moment.2 with input := r.swap rest q moment.2.input } = _
  by_cases hop : op = .readLine
  · subst hop
    -- The line that is taken now, and those that are taken later, are ahead of the rest.
    have hline : Work.line? moment = some (cutLine moment.2.input.pending).1 := by
      rw [Work.line?, hcall]
    obtain ⟨early, late, hcourse⟩ := List.append_of_mem hmoment
    have hends : endsLine (cutLine moment.2.input.pending).1 = true := by
      by_contra hnot
      refine hend ⟨_, List.mem_filterMap.2 ⟨moment, hmoment, hline⟩, ?_⟩
      simpa using hnot
    have hlater : (cutLine moment.2.input.pending).2 = Work.taken late ++ rest := by
      have hbefore := h.before hcourse
      rw [hrest, hcourse] at hbefore
      have htaken : Work.taken (early ++ moment :: late)
          = Work.taken early ++ ((cutLine moment.2.input.pending).1 ++ Work.taken late) := by
        simp [Work.taken, hline]
      rw [htaken, List.append_assoc, List.append_assoc] at hbefore
      have hpending := (List.append_cancel_left hbefore).symm
      rw [← cutLine_append moment.2.input.pending] at hpending
      exact List.append_cancel_left (hpending.trans (by rw [cutLine_append]))
    have hread := r.readLine_swap q (Prod.ext rfl hlater) hends
    rw [Native.run_readLine, Native.run_readLine, hread]
    rfl
  · rw [Native.run_withInput hop]
    show _ = ((op.run args moment.2).1, { (op.run args moment.2).2 with
      input := r.swap rest q (op.run args moment.2).2.input })
    rw [Native.input_run hop]

/-! ### Programs -/

namespace Outcome

variable {α : Type}

/-- A change at the end changes the machine of the outcome, if it has one. -/
theorem machine?_mapMachine (x : Outcome α) (change : Machine → Machine) :
    (x.mapMachine change).machine? = x.machine?.map change := by
  cases x <;> rfl

/-- Outcomes that are the same up to their machines, when the first one has a machine. -/
theorem exists_of_mapMachine {x y : Outcome α} {g h : Machine → Machine} {m : Machine}
    (heq : x.mapMachine g = y.mapMachine h) (hm : x.machine? = some m) :
    ∃ m', g m = h m' ∧ ∀ change : Machine → Machine, change m = m' → y = x.mapMachine change := by
  cases x with
  | starved => cases hm
  | done v m₁ =>
      cases hm
      cases y with
      | failed | starved => cases heq
      | done w m₂ =>
          obtain ⟨rfl, hmachines⟩ := done.inj heq
          refine ⟨m₂, hmachines, ?_⟩
          rintro change rfl
          rfl
  | failed error m₁ =>
      cases hm
      cases y with
      | done | starved => cases heq
      | failed error' m₂ =>
          obtain ⟨rfl, hmachines⟩ := failed.inj heq
          refine ⟨m₂, hmachines, ?_⟩
          rintro change rfl
          rfl

end Outcome

/-- Machines that are the same when their readers are exchanged are the same but for the readers. -/
theorem Machine.eq_of_withInput {m m' : Machine} {r r' : Reader}
    (h : ({ m with input := r } : Machine) = { m' with input := r' }) :
    r = r' ∧ { m with input := m'.input } = m' := by
  obtain ⟨⟩ := m
  obtain ⟨⟩ := m'
  cases h
  exact ⟨rfl, rfl⟩

/-- A run that does not meet the end of the input ends in the same way if other bytes are behind
the lines that it takes, and it leaves these bytes. -/
theorem runProgram_swap {n : Nat} {program : Program} {m m₁ : Machine}
    (hm₁ : (runProgram n program m).machine? = some m₁)
    (hend : ¬ Work.MeetsEnd (Work.course n (.execAll program) m)) {r : Reader}
    {read q : List UInt8} (hread : m.input.pending = read ++ m₁.input.pending)
    (hr : r.pending = read ++ q) :
    ∃ r' : Reader, r'.pending = q ∧ runProgram n program { m with input := r }
      = (runProgram n program m).mapMachine fun m => { m with input := r' } := by
  have hdelivers : m.Delivers (Work.course n (.execAll program) m) (some m₁) :=
    hm₁ ▸ deliveryWatch.runProgram_sees placeUpkeep_lawful n (fun _ _ => trivial) trivial
  have hswap := runProgram_refit n program m
    (hdelivers.unnoticed (hdelivers.after m₁ rfl) hend r q)
  -- Both the reader and the one that is put in place of the old one hold all their bytes.
  have hheld := runProgram_refit n program { m with input := r } (refits_held.unnoticed _)
  have hsame : m.refit (fun devices => (r.swap m₁.input.pending q devices.1, devices.2))
      = Machine.refit (fun devices => (devices.1.held, devices.2)) { m with input := r } := by
    show { m with input := r.swap m₁.input.pending q m.input } = { m with input := r.held }
    rw [r.swap_eq q hread, ← hr]
    rfl
  rw [← hsame, hswap] at hheld
  -- The two runs end in the same way, and their machines differ in the reader at most.
  obtain ⟨m₂, hmachines, houtcome⟩ := Outcome.exists_of_mapMachine hheld hm₁
  obtain ⟨hreaders, hmachine⟩ := Machine.eq_of_withInput hmachines
  have hleft : r.swap m₁.input.pending q m₁.input = { r with buffer := [] ++ q, source := [] } :=
    r.swap_eq q rfl
  refine ⟨m₂.input, ?_, houtcome _ hmachine⟩
  calc m₂.input.pending
    _ = m₂.input.held.pending := (Reader.pending_held _).symm
    _ = (r.swap m₁.input.pending q m₁.input).pending := congrArg Reader.pending hreaders.symm
    _ = q := by
      rw [hleft]
      simp [Reader.pending]

/-- Programs only append to the output, and what they append does not depend on what was there. They
only take input from the front, line by line, and never need more than they take: if they do not
meet the end of the input, then with any other bytes behind those that they took they do the same
and leave these bytes. This holds of all runs that end, also of those that fail. -/
theorem runs_use_streams_in_turn (n : Nat) (program : Program) (m : Machine) :
    ∃ printed : ByteArray,
      (∀ bytes, runProgram n program (m.withPrinted bytes)
        = (runProgram n program m).mapMachine (·.withPrinted (bytes ++ printed))) ∧
      ∀ m₁ ∈ (runProgram n program m).machine?,
        m₁.output.bytes = m.output.bytes ++ printed ∧
        m.NotesEnd (Work.course n (.execAll program) m) (some m₁) ∧
        ∃ read, m.input.pending = read ++ m₁.input.pending ∧
          (¬ Work.MeetsEnd (Work.course n (.execAll program) m) →
            ∀ (r : Reader) (q : List UInt8), r.pending = read ++ q →
              ∃ r' : Reader, r'.pending = q ∧ runProgram n program { m with input := r }
                = (runProgram n program m).mapMachine fun m => { m with input := r' }) := by
  obtain ⟨printed, hprinted⟩ := exists_printed n program m
  refine ⟨printed, hprinted, ?_⟩
  intro m₁ hm₁
  have hdelivers : m.Delivers (Work.course n (.execAll program) m)
      (runProgram n program m).machine? :=
    deliveryWatch.runProgram_sees placeUpkeep_lawful n (fun _ _ => trivial) trivial
  have hnotes : m.NotesEnd (Work.course n (.execAll program) m)
      (runProgram n program m).machine? :=
    endWatch.runProgram_sees placeUpkeep_lawful n (fun _ _ => trivial) trivial
  have hread := hdelivers.after m₁ hm₁
  refine ⟨?_, fun m₂ hm₂ => ?_, _, hread, fun hend r q hr => runProgram_swap hm₁ hend hread hr⟩
  · -- The machine itself is the machine with its own output.
    have hown : (runProgram n program m).machine?
        = ((runProgram n program m).mapMachine _).machine? :=
      congrArg Outcome.machine? (hprinted m.output.bytes)
    rw [Outcome.machine?_mapMachine, hm₁] at hown
    exact congrArg (fun m => m.output.bytes) (Option.some.inj hown)
  · cases hm₂
    exact hnotes m₁ hm₁

/-- A program that reads a line and prints it leaves what is behind the line, whatever that is. -/
theorem runs_use_streams_in_turn_line :
    let input := Reader.ofBytes "hi\nthere".toUTF8.toList none
    let s := Session.start (.new 0) input (.empty none) (.splitMix 0) (.steady (.ok 0))
    let program := (Analysis.ofSource "print(read_line());" s.lexicon).program
    ∀ (r : Reader) (q : List UInt8), r.pending = "hi\n".toUTF8.toList ++ q →
      ∃ r' : Reader, r'.pending = q ∧ runProgram 20 program { s.machine with input := r }
        = (runProgram 20 program s.machine).mapMachine fun m => { m with input := r' } := by
  intro input s program r q hr
  obtain ⟨printed, -, hended⟩ := runs_use_streams_in_turn 20 program s.machine
  have hleft : (runProgram 20 program s.machine).machine?.map (·.input.pending)
      = some "there".toUTF8.toList := by
    decide +kernel
  obtain ⟨m₁, hm₁, hpending⟩ := Option.map_eq_some_iff.1 hleft
  obtain ⟨-, -, read, hread, hswap⟩ := hended m₁ hm₁
  have hall : s.machine.input.pending = "hi\n".toUTF8.toList ++ "there".toUTF8.toList := by
    decide +kernel
  rw [hpending, hall] at hread
  obtain rfl := List.append_cancel_right hread
  exact hswap (by decide +kernel) r q hr

end Scriptlet
