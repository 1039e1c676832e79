import Scriptlet.Run.Reader

/-!
# `Scriptlet.Proofs.Run.Reader`: lines, whatever the portions

A reader fetches bytes in portions, but what it delivers are lines of the bytes that it had
pending, and the portions do not show.

* `nextLine_iff`: a line goes up to and with the first line end, or to the end of the bytes.
* `Reader.takeLine_spec`, `Reader.pending_takeLine`: a reader delivers the first line of what is
  pending, and the rest is pending from then on.
* `Reader.readLine_held`: a reader that holds all its bytes already reads the same lines.
* `Reader.Idle.readLine`: a reader that fetches byte by byte holds nothing back, neither at the end
  of a line nor at the end of the input.
-/

set_option autoImplicit false

namespace Scriptlet

/-! ### Lines -/

/-- The bytes start with this line: it ends with the only line end in it, or it has none and is all
that there is. The rest stays behind it. -/
def NextLine (bytes line rest : List UInt8) : Prop :=
  bytes = line ++ rest ∧
    ((∃ front, line = front ++ [newlineByte] ∧ newlineByte ∉ front) ∨
      newlineByte ∉ line ∧ rest = [])

/-- What is cut off is the first line, by its description. -/
theorem nextLine_cutLine (bytes : List UInt8) :
    NextLine bytes (cutLine bytes).1 (cutLine bytes).2 := by
  induction bytes with
  | nil => exact ⟨rfl, .inr ⟨by simp [cutLine], rfl⟩⟩
  | cons b bytes ih =>
      by_cases hb : b = newlineByte
      · simp only [cutLine, hb, if_true]
        exact ⟨rfl, .inl ⟨[], rfl, by simp⟩⟩
      · obtain ⟨hbytes, hline⟩ := ih
        simp only [cutLine, hb, if_false]
        refine ⟨by rw [List.cons_append, ← hbytes], ?_⟩
        rcases hline with ⟨front, hfront, hnot⟩ | ⟨hnot, hrest⟩
        · exact .inl ⟨b :: front, by rw [hfront]; rfl, by simp [hnot, Ne.symm hb]⟩
        · exact .inr ⟨by simp [hnot, Ne.symm hb], hrest⟩

/-- Bytes without a line end belong to the line that follows them. -/
theorem cutLine_front {front : List UInt8} (h : newlineByte ∉ front) (more : List UInt8) :
    cutLine (front ++ more) = (front ++ (cutLine more).1, (cutLine more).2) := by
  induction front with
  | nil => rfl
  | cons b front ih =>
      simp only [List.mem_cons, not_or] at h
      simp only [List.cons_append, cutLine, if_neg (Ne.symm h.1), ih h.2]

/-- Bytes start with one line only. -/
theorem nextLine_iff {bytes line rest : List UInt8} :
    NextLine bytes line rest ↔ cutLine bytes = (line, rest) := by
  constructor
  · rintro ⟨rfl, ⟨front, rfl, hfront⟩ | ⟨hline, rfl⟩⟩
    · rw [List.append_assoc, cutLine_front hfront]
      simp [cutLine]
    · rw [cutLine_front hline]
      simp [cutLine]
  · intro h
    have hcut := nextLine_cutLine bytes
    rw [h] at hcut
    exact hcut

/-- By this description, bytes have one first line. -/
theorem NextLine.unique {bytes line line' rest rest' : List UInt8}
    (h : NextLine bytes line rest) (h' : NextLine bytes line' rest') :
    line = line' ∧ rest = rest' :=
  Prod.mk.inj ((nextLine_iff.1 h).symm.trans (nextLine_iff.1 h'))

/-- The first line ends with a line end if there is any in the bytes. -/
theorem endsLine_cutLine (bytes : List UInt8) :
    endsLine (cutLine bytes).1 = true ↔ newlineByte ∈ bytes := by
  obtain ⟨hbytes, ⟨front, hfront, -⟩ | ⟨hline, hrest⟩⟩ := nextLine_cutLine bytes
  · have hmem : newlineByte ∈ bytes := by
      rw [hbytes, hfront]
      simp
    simp [hfront, endsLine, hmem]
  · have hmem : newlineByte ∈ bytes ↔ newlineByte ∈ (cutLine bytes).1 := by
      rw [hrest, List.append_nil] at hbytes
      rw [← hbytes]
    refine ⟨fun h => ?_, fun h => absurd (hmem.1 h) hline⟩
    exact absurd (List.mem_of_getLast? (beq_iff_eq.1 h)) hline

/-- A line that has its line end does not depend on what follows. -/
theorem cutLine_append_of_mem {bytes : List UInt8} (h : newlineByte ∈ bytes)
    (more : List UInt8) :
    cutLine (bytes ++ more) = ((cutLine bytes).1, (cutLine bytes).2 ++ more) := by
  obtain ⟨hbytes, hline⟩ := nextLine_cutLine bytes
  refine nextLine_iff.1 ⟨by rw [← List.append_assoc, ← hbytes], ?_⟩
  rcases hline with hline | ⟨hline, hrest⟩
  · exact .inl hline
  · rw [hbytes, hrest, List.append_nil] at h
    exact absurd h hline

/-- A line that is cut off is not empty, unless nothing was left. -/
theorem cutLine_ne_nil {bytes : List UInt8} (h : bytes ≠ []) : (cutLine bytes).1 ≠ [] := by
  cases bytes with
  | nil => exact absurd rfl h
  | cons b bytes =>
      unfold cutLine
      split <;> simp

/-! ### Readers -/

namespace Reader

/-- A reader takes the first line of what is pending. It notes if it met the end of the source
instead of a line end. -/
theorem takeLine_spec (r : Reader) (early : List UInt8) :
    (r.takeLine early).1 = early ++ (cutLine r.pending).1 ∧
      ∃ buffer source, (r.takeLine early).2 = { r with
        buffer, source, metEnd := r.metEnd || !endsLine (cutLine r.pending).1 } := by
  fun_induction takeLine r early with
  | case1 r early line rest hcut hline =>
      -- The line end is in the buffer.
      have hmem : newlineByte ∈ r.buffer :=
        (endsLine_cutLine r.buffer).1 (by rw [hcut]; exact hline)
      have hpending := cutLine_append_of_mem hmem r.source
      rw [hcut] at hpending
      simp [pending, hpending, hcut, hline]
  | case2 r early line rest hcut hline hsource =>
      simp [pending, hsource, hcut, hline]
  | case3 r early line rest hcut hline hsource ih =>
      -- The buffer has no line end, so the line goes on in the source.
      have hmem : newlineByte ∉ r.buffer := by
        rw [← endsLine_cutLine, hcut]
        exact hline
      have hbuffer := cutLine_front hmem []
      rw [List.append_nil, hcut] at hbuffer
      have hline' : line = r.buffer := by simpa [cutLine] using congrArg Prod.fst hbuffer
      have hrefill : r.refill.pending = r.source := by simp [pending, refill]
      have hends : endsLine (r.buffer ++ (cutLine r.source).1) = endsLine (cutLine r.source).1 := by
        have hlast := List.getLast?_eq_some_getLast (cutLine_ne_nil hsource)
        simp [endsLine, List.getLast?_append, hlast]
      obtain ⟨ih, buffer, source, ihnext⟩ := ih
      rw [hrefill] at ih ihnext
      have hpending : cutLine r.pending = _ := cutLine_front hmem r.source
      rw [hcut, hpending, hends]
      simp only [hline, hsource]
      refine ⟨?_, buffer, source, ?_⟩
      · simpa [hline'] using ih
      · simpa [refill] using ihnext

/-- What is behind the line stays pending. -/
theorem pending_takeLine (r : Reader) (early : List UInt8) :
    (r.takeLine early).2.pending = (cutLine r.pending).2 := by
  have happend := takeLine_append_pending r early
  rw [(takeLine_spec r early).1, List.append_assoc] at happend
  have hcut := cutLine_append r.pending
  exact List.append_cancel_left ((List.append_cancel_left happend).trans hcut.symm)

/-- What reading answers when a line was taken: its text, nothing at the end, or an error. -/
def lineReply (failure : Option String) (line : List UInt8) : Except String (Option String) :=
  match failure, endsLine line with
  | some words, false => .error words
  | _, _ =>
    if line.isEmpty then .ok none
    else
      match decodeText? line with
      | some text => .ok (some text)
      | none => .error invalidTextWords

/-- The line is taken before it is known whether it is text. -/
theorem readLine_eq (r : Reader) :
    r.readLine = (lineReply r.failure (cutLine r.pending).1, (r.takeLine []).2) := by
  obtain ⟨hline, buffer, source, hnext⟩ := takeLine_spec r []
  have hfailure : (r.takeLine []).2.failure = r.failure := by rw [hnext]
  unfold readLine lineReply
  rw [← hfailure, ← List.nil_append (cutLine r.pending).1, ← hline]
  grind

/-! ### Readers that hold all their bytes -/

/-- The reader when it has fetched all its bytes at once. -/
def held (r : Reader) : Reader := { r with buffer := r.pending, source := [] }

/-- Fetching everything leaves pending what was pending. -/
@[simp] theorem pending_held (r : Reader) : r.held.pending = r.pending := by
  simp [pending, held]

/-- The same line is taken from a reader that has fetched everything. -/
theorem takeLine_held (r : Reader) (early : List UInt8) :
    r.held.takeLine early = ((r.takeLine early).1, (r.takeLine early).2.held) := by
  obtain ⟨hline, buffer, source, hnext⟩ := takeLine_spec r early
  have hpending := pending_takeLine r early
  unfold held
  rw [hline, hpending, hnext]
  -- Nothing is left to fetch, so the line and the rest are cut from the buffer.
  unfold takeLine
  cases hends : endsLine (cutLine r.pending).1 with
  | true => simp
  | false =>
      have hrest := cutLine_rest_of_not_endsLine r.pending hends
      simp [hrest]

/-- What is read does not depend on what was fetched. -/
theorem readLine_held (r : Reader) :
    r.held.readLine = (r.readLine.1, r.readLine.2.held) := by
  rw [readLine_eq, readLine_eq, pending_held, takeLine_held]
  rfl

/-! ### Readers that hold nothing back -/

/-- The reader fetches byte by byte, and has delivered what it has fetched. -/
structure Idle (r : Reader) : Prop where
  portion : r.portion = 1
  buffer : r.buffer = []

/-- What is pending is what the source has not delivered yet. -/
theorem Idle.pending {r : Reader} (h : r.Idle) : r.pending = r.source := by
  unfold Reader.pending
  rw [h.buffer]
  rfl

/-- With one byte at most in the buffer, nothing is left in it behind a line. -/
theorem idle_takeLine {r : Reader} (early : List UInt8) (hportion : r.portion = 1)
    (hbuffer : r.buffer.length ≤ 1) : (r.takeLine early).2.Idle := by
  fun_induction takeLine r early with
  | case1 r early line rest hcut hline =>
      -- The one byte is the line end.
      have happend := cutLine_append r.buffer
      rw [hcut] at happend
      have hlength := congrArg List.length happend
      have hpos : 0 < line.length := by
        cases line with
        | nil => simp [endsLine] at hline
        | cons b line => simp
      have hrest : rest = [] := List.length_eq_zero_iff.1 (by simp at hlength; omega)
      simp only [hcut, hline, if_true]
      exact ⟨hportion, hrest⟩
  | case2 r early line rest hcut hline hsource =>
      simp only [hcut, hline, hsource]
      exact ⟨hportion, rfl⟩
  | case3 r early line rest hcut hline hsource ih =>
      simp only [hcut, hline, hsource]
      have hfetched : r.refill.buffer.length ≤ 1 := by
        simp only [refill, hportion, List.length_take]
        omega
      exact ih hportion hfetched

/-- A line leaves nothing in the buffer, on all ways. -/
theorem Idle.readLine {r : Reader} (h : r.Idle) : r.readLine.2.Idle := by
  rw [readLine_eq]
  exact idle_takeLine [] h.portion (by simp [h.buffer])

end Reader

end Scriptlet
