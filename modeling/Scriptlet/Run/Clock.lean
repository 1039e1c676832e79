/-!
# `Scriptlet.Run.Clock`: the time, reading by reading

A `Clock` gives one reading each time that it is asked, and no two readings need be the
same. Which ones are still to come is told by the clock, so that a program that asks for the
time is determined by it.
-/

set_option autoImplicit false

namespace Scriptlet

/-- The readings of a clock. -/
structure Clock where
  /-- The time in seconds, one reading after the other, or the words for a clock that cannot
  tell it. -/
  reading : Nat → Except String Float
  /-- How many readings were taken. -/
  taken : Nat

namespace Clock

/-- A clock that stands still. -/
def steady (reading : Except String Float) : Clock := ⟨fun _ => reading, 0⟩

/-- A clock with these readings. When they are used up, it fails with these words. -/
def ofReadings (readings : Array (Except String Float)) (words : String) : Clock :=
  ⟨fun place => readings.getD place (.error words), 0⟩

/-- Takes the next reading. -/
def read (c : Clock) : Except String Float × Clock :=
  (c.reading c.taken, { c with taken := c.taken + 1 })

end Clock

end Scriptlet
