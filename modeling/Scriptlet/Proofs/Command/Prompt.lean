import Scriptlet.Command.Prompt
import Scriptlet.Proofs.Run.Delivery
import Scriptlet.Run.SplitMix

/-!
# `Scriptlet.Proofs.Command.Prompt`: the prompt and its programs share one input

The prompt takes lines from the source of the input, and programs take lines through a reader that
has a buffer of its own. Nothing is lost between the two, because the reader fetches byte by byte:
its buffer is empty whenever the prompt is asked.

* `Proceeds`: the prompt with a single cursor, from which both it and its programs take lines.
* `Proceeds.unique`, `Proceeds.delivered`: it comes to one end only, and delivers each byte once.
* `Follows.afterLine`: a line that is run in a session whose buffer is empty comes to the same as
  with a single cursor, and the buffer is empty again.
* `prompt_follows_cursor`: so the prompt does what it would do with a single cursor.
-/

set_option autoImplicit false

namespace Scriptlet.Command

/-! ### The prompt with a single cursor -/

/-- The session when it reads from a cursor: what its programs can read are these bytes, and there
is nothing behind them to fetch. -/
def reading (s : Session) (cursor : List UInt8) : Session :=
  let input := { s.machine.input with buffer := cursor, source := [], failure := none }
  { s with machine := { s.machine with input } }

/-- The session when it has asked for a line. -/
def asked (s : Session) : Session := { s with machine := s.machine.write "> " }

/-- Who a line is delivered to. -/
inductive Delivery where
  | prompt (line : List UInt8)
  | program (line : List UInt8)
  deriving DecidableEq, Repr

/-- The bytes that are delivered. -/
def Delivery.bytes : Delivery → List UInt8
  | prompt line => line
  | program line => line

/-- All that a prompt does until it ends. -/
structure Proceedings where
  code : UInt32
  stderr : String
  output : Sink
  /-- The lines that were taken, in the order of time. -/
  deliveries : List Delivery
  /-- What nobody took. -/
  left : List UInt8

/-- The prompt with a single cursor. It asks for a line and takes the next one. If there is none it
ends; if the line is no text it ends with an error; else the line is run in the session, where
programs take lines from the same cursor, and the prompt goes on behind them. -/
inductive Proceeds (n : Nat) : Session → List UInt8 → Proceedings → Prop where
  | ended {s : Session} :
      Proceeds n s [] ⟨0, "", (asked s).machine.output, [], []⟩
  | unreadable {s : Session} {cursor line rest : List UInt8} :
      NextLine cursor line rest → line ≠ [] → decodeText? line = none →
      Proceeds n s cursor ⟨66, "failed to read input: " ++ invalidTextWords ++ "\n",
        (asked s).machine.output, [.prompt line], rest⟩
  | line {s after : Session} {cursor line rest : List UInt8} {source : String} {verdict : Verdict}
      {p : Proceedings} :
      NextLine cursor line rest → line ≠ [] → decodeText? line = some source →
      (reading (asked s) rest).eval n source = (verdict, after) →
      Proceeds n after after.machine.input.pending p →
      Proceeds n s cursor { p with
        stderr := complaint verdict ++ p.stderr
        deliveries := .prompt line ::
          (((reading (asked s) rest).deliveries n source).map .program ++ p.deliveries) }

/-- The bytes that go to programs are those of their lines. -/
theorem flatMap_programs (lines : List (List UInt8)) :
    (lines.map Delivery.program).flatMap Delivery.bytes = lines.flatten := by
  induction lines with
  | nil => rfl
  | cons line lines ih => simp [ih, Delivery.bytes]

/-- A session that reads at the cursor has the bytes from there on pending. -/
@[simp] theorem pending_reading (s : Session) (cursor : List UInt8) :
    (reading s cursor).machine.input.pending = cursor := by
  simp [reading, Reader.pending]

namespace Proceeds

variable {n : Nat} {s : Session} {cursor line rest : List UInt8} {p q : Proceedings}

/-- Without bytes there is no line. -/
theorem not_nextLine_nil (hline : line ≠ []) : ¬ NextLine [] line rest := by
  intro hnext
  have hnil : NextLine [] [] [] := nextLine_cutLine []
  exact hline (hnext.unique hnil).1

/-- The prompt comes to one end only. -/
theorem unique (hp : Proceeds n s cursor p) (hq : Proceeds n s cursor q) : p = q := by
  -- At each line the next step is forced: by the end of the bytes, by a line that is no text, or by
  -- what the source comes to.
  induction hp generalizing q with
  | ended =>
      cases hq with
      | ended => rfl
      | unreadable hnext hline _ => exact absurd hnext (not_nextLine_nil hline)
      | line hnext hline _ _ _ => exact absurd hnext (not_nextLine_nil hline)
  | unreadable hnext hline htext =>
      cases hq with
      | ended => exact absurd hnext (not_nextLine_nil hline)
      | unreadable hnext' _ _ =>
          obtain ⟨rfl, rfl⟩ := hnext.unique hnext'
          rfl
      | line hnext' _ htext' _ _ =>
          obtain ⟨rfl, rfl⟩ := hnext.unique hnext'
          simp [htext] at htext'
  | line hnext hline htext heval _ ih =>
      cases hq with
      | ended => exact absurd hnext (not_nextLine_nil hline)
      | unreadable hnext' _ htext' =>
          obtain ⟨rfl, rfl⟩ := hnext.unique hnext'
          simp [htext] at htext'
      | line hnext' _ htext' heval' hq =>
          obtain ⟨rfl, rfl⟩ := hnext.unique hnext'
          obtain rfl := Option.some.inj (htext.symm.trans htext')
          obtain ⟨rfl, rfl⟩ := Prod.mk.inj (heval.symm.trans heval')
          rw [ih hq]

/-- Every byte is delivered once and in order, or left. -/
theorem delivered (hp : Proceeds n s cursor p) :
    p.deliveries.flatMap Delivery.bytes ++ p.left = cursor := by
  induction hp with
  | ended => rfl
  | unreadable hnext _ _ => simpa [Delivery.bytes] using hnext.1.symm
  | @line s after cursor line rest source verdict p hnext _ _ heval _ ih =>
      have htaken := (reading (asked s) rest).deliveries_append_pending n source
      rw [heval, pending_reading] at htaken
      rw [hnext.1, List.flatMap_cons, List.flatMap_append, flatMap_programs, List.append_assoc,
        List.append_assoc, ih, ← htaken]
      rfl

/-- The prompt ends when nothing is left, or behind a line that was meant for it and is no text. -/
theorem ending (hp : Proceeds n s cursor p) :
    p.code = 0 ∧ p.left = [] ∨
      p.code = 66 ∧ ∃ line, p.deliveries.getLast? = some (.prompt line) ∧
        decodeText? line = none := by
  induction hp with
  | ended => exact .inl ⟨rfl, rfl⟩
  | unreadable _ _ htext => exact .inr ⟨rfl, _, rfl, htext⟩
  | line _ _ _ _ _ ih =>
      rcases ih with hended | ⟨hcode, line, hlast, htext⟩
      · exact .inl hended
      · refine .inr ⟨hcode, line, ?_, htext⟩
        simp [List.getLast?_cons, List.getLast?_append, hlast]

end Proceeds

/-! ### The prompt and its cursor -/

/-- The session reads byte by byte from the cursor and holds nothing back. But for its input it is
the other session. -/
structure Follows (s r : Session) (cursor : List UInt8) : Prop where
  idle : s.machine.input.Idle
  failure : s.machine.input.failure = none
  source : s.machine.input.source = cursor
  same : reading s [] = reading r []

namespace Follows

variable {s r : Session} {cursor line rest : List UInt8}

/-- Both have printed the same. -/
theorem output (h : Follows s r cursor) : s.machine.output = r.machine.output := by
  have houtput := congrArg (fun s : Session => s.machine.output) h.same
  exact houtput

/-- Asking for a line prints the same in both and reads nothing. -/
theorem afterAsking (h : Follows s r cursor) : Follows (ask s) (asked r) cursor where
  idle := h.idle
  failure := h.failure
  source := h.source
  same := congrArg asked h.same

/-- When the prompt has taken a line, its programs read on behind it. -/
theorem afterTaking (h : Follows s r cursor) (hnext : NextLine cursor line rest) :
    (takePromptLine s).1 = line ∧ Follows (takePromptLine s).2 r rest := by
  have hcut : cutLine s.machine.input.source = (line, rest) := by
    rw [h.source]
    exact nextLine_iff.1 hnext
  unfold takePromptLine
  rw [hcut]
  exact ⟨rfl, ⟨h.idle.portion, h.idle.buffer⟩, h.failure, rfl, h.same⟩

/-- With an empty buffer it makes no difference if all bytes were fetched before. -/
theorem refit_held (h : Follows s r cursor) :
    s.refit (fun devices => (devices.1.held, devices.2)) = reading r cursor := by
  have hsame : reading (reading s []) cursor = reading (reading r []) cursor := by rw [h.same]
  have hheld : s.machine.input.held
      = { s.machine.input with buffer := cursor, source := [], failure := none } := by
    unfold Reader.held
    rw [h.idle.pending, h.source, ← h.failure]
  show _ = reading (reading r []) cursor
  rw [← hsame]
  show { s with machine := { s.machine with input := s.machine.input.held } } = reading s cursor
  rw [hheld]
  rfl

/-- A line that is run comes to the same as with a single cursor, and the buffer is empty again. -/
theorem afterLine (h : Follows s r cursor) (n : Nat) (source : String) :
    ∃ after, (reading r cursor).eval n source = ((s.eval n source).1, after) ∧
      Follows (s.eval n source).2 after after.machine.input.pending := by
  have heval := Session.eval_refit refits_held s n source
  rw [h.refit_held] at heval
  obtain ⟨hfailure, hidle⟩ :=
    readingUpkeep_lawful.source n source h.failure fun _ _ => trivial
  refine ⟨_, heval, hidle h.idle, hfailure, ?_, rfl⟩
  show _ = (s.eval n source).2.machine.input.held.pending
  rw [Reader.pending_held, (hidle h.idle).pending]

end Follows

/-- What the prompt gives is what these proceedings tell. -/
structure Proceedings.Tells (p : Proceedings) (result : UInt32 × String × Session) : Prop where
  code : result.1 = p.code
  stderr : result.2.1 = p.stderr
  output : result.2.2.machine.output = p.output
  left : result.2.2.machine.input.pending = p.left

/-- One round of the prompt and those behind it. -/
theorem rounds_succ (n more : Nat) (s : Session) :
    rounds n (more + 1) s =
      let taken := takePromptLine (ask s)
      if taken.1 = [] then (successCode, "", taken.2)
      else
        match decodeText? taken.1 with
        | none => (unreadableCode, "failed to read input: " ++ invalidTextWords ++ "\n", taken.2)
        | some source =>
          let result := taken.2.eval n source
          let others := rounds n more result.2
          (others.1, complaint result.1 ++ others.2.1, others.2.2) := by
  by_cases hline : (takePromptLine (ask s)).1 = []
  · simp [rounds, round, hline]
  · simp only [rounds, round, List.isEmpty_iff, if_neg hline]
    cases decodeText? (takePromptLine (ask s)).1 <;> rfl

/-- The prompt goes on as with a single cursor. Each line takes at least one byte off the cursor, so
that the prompt ends before its rounds do. -/
theorem Follows.tells_rounds {n more : Nat} {s r : Session} {cursor : List UInt8}
    (h : Follows s r cursor) (hmore : cursor.length < more) :
    ∃ p, Proceeds n r cursor p ∧ p.Tells (rounds n more s) := by
  induction more generalizing s r cursor with
  | zero => omega
  | succ more ih =>
      obtain ⟨line, rest, hnext⟩ : ∃ line rest, NextLine cursor line rest :=
        ⟨_, _, nextLine_cutLine cursor⟩
      obtain ⟨htaken, hfollows⟩ := h.afterAsking.afterTaking hnext
      have hleft : (takePromptLine (ask s)).2.machine.input.pending = rest := by
        rw [hfollows.idle.pending, hfollows.source]
      rw [rounds_succ]
      by_cases hline : line = []
      · -- The input is used up.
        have hcursor : cursor = [] := by
          by_contra hcursor
          exact cutLine_ne_nil hcursor (hline ▸ congrArg Prod.fst (nextLine_iff.1 hnext))
        subst hcursor hline
        have hrest : rest = [] := (hnext.unique (nextLine_cutLine [])).2
        refine ⟨_, .ended, ?_⟩
        simp only [htaken, if_true]
        exact ⟨rfl, rfl, hfollows.output, hleft.trans hrest⟩
      · simp only [htaken, if_neg hline]
        cases htext : decodeText? line with
        | none =>
            exact ⟨_, .unreadable hnext hline htext, rfl, rfl, hfollows.output, hleft⟩
        | some source =>
            obtain ⟨after, heval, hafter⟩ := hfollows.afterLine n source
            have hpending := (reading (asked r) rest).deliveries_append_pending n source
            rw [heval, pending_reading] at hpending
            have hlength : after.machine.input.pending.length < more := by
              have hrest := congrArg List.length hpending
              have hcursor := congrArg List.length hnext.1
              have hpos := List.length_pos_iff.2 hline
              simp only [List.length_append] at hrest hcursor
              omega
            obtain ⟨p, hp, htells⟩ := ih hafter hlength
            refine ⟨_, .line hnext hline htext heval hp, htells.code, ?_, htells.output,
              htells.left⟩
            exact congrArg (complaint _ ++ ·) htells.stderr

/-- A prompt whose buffer is empty at first tells what the one with a single cursor tells. -/
theorem Follows.runPrompt_eq {s r : Session} {cursor : List UInt8} (h : Follows s r cursor)
    (n : Nat) :
    ∃ p, Proceeds n r cursor p ∧ (runPrompt s n).1 = ⟨p.code, p.output.bytes, p.stderr⟩ ∧
      (runPrompt s n).2.machine.input.pending = p.left := by
  have hlength : cursor.length < s.machine.input.source.length + 1 := by
    rw [h.source]
    omega
  obtain ⟨p, hp, htells⟩ := h.tells_rounds (n := n) hlength
  unfold runPrompt
  generalize rounds n (s.machine.input.source.length + 1) s = result at htells ⊢
  obtain ⟨code, stderr, after⟩ := result
  obtain ⟨hcode, hstderr, houtput, hleft⟩ := htells
  refine ⟨p, hp, ?_, hleft⟩
  rw [← hcode, ← hstderr, ← houtput]
  rfl

/-! ### A new prompt -/

/-- A new session has its input as it was given. -/
theorem input_start (lexicon : Lexicon) (input : Reader) (output : Sink) (generator : Generator)
    (clock : Clock) :
    (Session.start lexicon input output generator clock).machine.input = input :=
  Session.start_induction (motive := fun s => s.machine.input = input) lexicon input output
    generator clock rfl fun _ _ _ _ h => h

/-- **The prompt and its programs share the input without loss.** On every input a prompt does what
it would do with a single cursor, of which there is only one way: it ends with the same code, and
has written and reported the same. Each byte is delivered once, in order, to the prompt or to a
program. Nothing is left when the prompt ends well, and else what is behind the line that is no
text. With a single cursor, calls that read take line after line from the cursor at which their
program was started. A program that is given up for want of steps has taken nothing. -/
theorem prompt_follows_cursor (stdin : List UInt8) (tag : Nat) (generator : Generator)
    (clock : Clock) (n : Nat) :
    let s := Session.start (.new tag) (.unbuffered stdin none) (.empty none) generator clock
    (∃ p, Proceeds n s stdin p ∧ (∀ q, Proceeds n s stdin q → q = p) ∧
      (runPrompt s n).1 = ⟨p.code, p.output.bytes, p.stderr⟩ ∧
      (runPrompt s n).2.machine.input.pending = p.left ∧
      p.deliveries.flatMap Delivery.bytes ++ p.left = stdin ∧
      (p.code = 0 ∧ p.left = [] ∨
        p.code = 66 ∧ ∃ line, p.deliveries.getLast? = some (.prompt line) ∧
          decodeText? line = none)) ∧
    ∀ t cursor source, (reading t cursor).ReadsInTurn n source := by
  have hinput := input_start (.new tag) (.unbuffered stdin none) (.empty none) generator clock
  generalize Session.start (.new tag) (.unbuffered stdin none) (.empty none) generator clock = s
    at hinput ⊢
  -- At first nothing was read, so the session that fetches and the one with a cursor are the same.
  have hfollows : Follows s s stdin :=
    ⟨hinput ▸ ⟨rfl, rfl⟩, hinput ▸ rfl, hinput ▸ rfl, rfl⟩
  obtain ⟨p, hp, htranscript, hleft⟩ := hfollows.runPrompt_eq n
  refine ⟨⟨p, hp, fun q hq => hq.unique hp, htranscript, hleft, hp.delivered, hp.ending⟩, ?_⟩
  exact fun t cursor source => (reading t cursor).readsInTurn n source rfl

/-- The first line reads the second one, the third one fails, the fourth one reads bytes that are no
text, and the last one reads a line without a line end. -/
theorem prompt_follows_cursor_interleaved :
    let stdin := "print_line(read_line());\nhi\nx;\nread_line();\n".toUTF8.toList
      ++ [255, newlineByte] ++ "print(read_line());\nlast".toUTF8.toList
    let s := Session.start (.new 0) (.unbuffered stdin none) (.empty none)
      (.splitMix 0) (.steady (.ok 0))
    ∃ p, Proceeds 20 s stdin p ∧ p.deliveries.flatMap Delivery.bytes = stdin ∧ p.code = 0 ∧
      p.output.bytes.toList = "> hi\n> > > last> ".toUTF8.toList ∧
      p.stderr = "line 1, error at 'x': undefined variable 'x'\n"
        ++ "line 1, error at ')': I/O error: " ++ invalidTextWords ++ "\n" := by
  intro stdin s
  obtain ⟨⟨p, hp, -, htranscript, -, hdelivered, hending⟩, -⟩ :=
    prompt_follows_cursor stdin 0 (.splitMix 0) (.steady (.ok 0)) 20
  have hcode : p.code = 0 := by
    show (Transcript.mk p.code p.output.bytes p.stderr).code = 0
    rw [← htranscript]
    decide +kernel
  have hleft : p.left = [] := by
    rcases hending with ⟨-, hleft⟩ | ⟨hcode', -⟩
    · exact hleft
    · rw [hcode] at hcode'
      exact absurd hcode' (by decide)
  rw [hleft, List.append_nil] at hdelivered
  refine ⟨p, hp, hdelivered, hcode, ?_, ?_⟩
  · show (Transcript.mk p.code p.output.bytes p.stderr).stdout.toList = _
    rw [← htranscript]
    decide +kernel
  · show (Transcript.mk p.code p.output.bytes p.stderr).stderr = _
    rw [← htranscript]
    decide +kernel

end Scriptlet.Command
