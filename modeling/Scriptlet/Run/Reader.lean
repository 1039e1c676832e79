/-!
# `Scriptlet.Run.Reader`: input by lines

A `Reader` delivers a source of bytes line by line. It fetches bytes from the source in
portions and keeps what it has not delivered yet in a buffer, so that a reader with a large
portion can hold bytes back from others who read the same source, and a reader that fetches
byte by byte never does. A source ends, or it fails when its bytes are used up.
-/

set_option autoImplicit false

namespace Scriptlet

/-- The byte that ends a line. -/
def newlineByte : UInt8 := 10

/-- The words for bytes that are no text. -/
def invalidTextWords : String := "stream did not contain valid UTF-8"

/-- The text that bytes encode, if they encode one. -/
def decodeText? (bytes : List UInt8) : Option String :=
  String.fromUTF8? ⟨bytes.toArray⟩

/-- Cuts bytes behind the first line end; without one, takes them all. -/
def cutLine : List UInt8 → List UInt8 × List UInt8
  | [] => ([], [])
  | b :: rest =>
    if b = newlineByte then ([b], rest)
    else
      let (line, rest) := cutLine rest
      (b :: line, rest)

/-- Nothing is lost where bytes are cut. -/
theorem cutLine_append (bytes : List UInt8) : (cutLine bytes).1 ++ (cutLine bytes).2 = bytes := by
  induction bytes with
  | nil => rfl
  | cons b rest ih =>
    by_cases h : b = newlineByte
    · simp [cutLine, h]
    · simp [cutLine, h, ih]

/-- Whether bytes end with a line end. -/
def endsLine (bytes : List UInt8) : Bool := bytes.getLast? == some newlineByte

/-- A source of bytes and what was fetched from it. -/
structure Reader where
  /-- How many bytes are fetched at a time. -/
  portion : Nat
  portion_pos : 0 < portion
  /-- Bytes that were fetched and not delivered. -/
  buffer : List UInt8
  /-- Bytes that were not fetched. -/
  source : List UInt8
  /-- The words with which the source fails at its end, if it fails. -/
  failure : Option String
  /-- Whether a read met the end of the source. -/
  metEnd : Bool

namespace Reader

/-- A reader of these bytes. -/
def ofBytes (bytes : List UInt8) (failure : Option String) : Reader :=
  ⟨8192, by decide, [], bytes, failure, false⟩

/-- A reader that never fetches more than it delivers. -/
def unbuffered (bytes : List UInt8) (failure : Option String) : Reader :=
  ⟨1, by decide, [], bytes, failure, false⟩

/-- All bytes that the reader can still deliver. -/
def pending (r : Reader) : List UInt8 := r.buffer ++ r.source

/-- Fetches the next portion of the source, for a buffer that is used up. -/
def refill (r : Reader) : Reader :=
  { r with buffer := r.source.take r.portion, source := r.source.drop r.portion }

/-- A source with bytes left is shorter after a portion was fetched. -/
theorem length_source_refill {r : Reader} (h : r.source ≠ []) :
    r.refill.source.length < r.source.length := by
  have hpos := r.portion_pos
  have hlen := List.length_pos_iff.2 h
  simp only [refill, List.length_drop]
  omega

/-- The bytes up to and with the next line end, behind the bytes `early`. At the end of the
source there may be fewer, or none. -/
def takeLine (r : Reader) (early : List UInt8) : List UInt8 × Reader :=
  let (line, rest) := cutLine r.buffer
  if endsLine line then (early ++ line, { r with buffer := rest })
  else if _ended : r.source = [] then (early ++ line, { r with buffer := [], metEnd := true })
  else takeLine r.refill (early ++ line)
termination_by r.source.length
decreasing_by exact length_source_refill _ended

/-- Without a line end, everything is cut off. -/
theorem cutLine_rest_of_not_endsLine (bytes : List UInt8)
    (h : endsLine (cutLine bytes).1 = false) : (cutLine bytes).2 = [] := by
  induction bytes with
  | nil => rfl
  | cons b rest ih =>
    by_cases hb : b = newlineByte
    · simp [cutLine, hb, endsLine] at h
    · simp only [cutLine, hb, ↓reduceIte] at h ⊢
      -- The last byte of the longer line is that of the shorter one, if that has any.
      cases hline : (cutLine rest).1 with
      | nil => exact ih (by simp [hline, endsLine])
      | cons c more =>
        apply ih
        rw [hline] at h ⊢
        simpa [endsLine, List.getLast?_cons_cons] using h

/-- The line taken and what can still be delivered are what could be delivered before. -/
theorem takeLine_append_pending (r : Reader) (early : List UInt8) :
    (r.takeLine early).1 ++ (r.takeLine early).2.pending = early ++ r.pending := by
  -- The cases are a line end in the buffer, the end of the source, and another portion.
  fun_induction takeLine r early with
  | case1 r early line rest hcut hline =>
    have h := cutLine_append r.buffer
    simp only [hcut] at h
    simp only [hcut, hline, ↓reduceIte]
    simp [pending, ← h]
  | case2 r early line rest hcut hline hsource =>
    have h := cutLine_append r.buffer
    have hrest := cutLine_rest_of_not_endsLine r.buffer (by simpa [hcut] using hline)
    simp only [hcut] at h hrest
    simp only [hcut, hline, hsource, ↓reduceDIte, Bool.false_eq_true, ↓reduceIte]
    simp [pending, ← h, hrest, hsource]
  | case3 r early line rest hcut hline hsource ih =>
    have h := cutLine_append r.buffer
    have hrest := cutLine_rest_of_not_endsLine r.buffer (by simpa [hcut] using hline)
    simp only [hcut] at h hrest
    simp only [hcut, hline, hsource, ↓reduceDIte, Bool.false_eq_true, ↓reduceIte, ih]
    simp [pending, refill, ← h, hrest]

/-- Reads a line with its line end; at the end of the input there is none. A line that is
no text is lost, and so is an unfinished line in front of a failure. -/
def readLine (r : Reader) : Except String (Option String) × Reader :=
  let (line, next) := r.takeLine []
  match next.failure, endsLine line with
  | some words, false => (.error words, next)
  | _, _ =>
    if line.isEmpty then (.ok none, next)
    else
      match decodeText? line with
      | some text => (.ok (some text), next)
      | none => (.error invalidTextWords, next)

/-- Reads all bytes as one text. A failure of the source counts before bytes that are no
text. -/
def readAll (r : Reader) : Except String String :=
  match r.failure with
  | some words => .error words
  | none =>
    match decodeText? r.pending with
    | some text => .ok text
    | none => .error invalidTextWords

end Reader

end Scriptlet
