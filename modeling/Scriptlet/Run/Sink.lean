/-!
# `Scriptlet.Run.Sink`: output with limited room

A `Sink` takes the bytes that a program writes. It may have room for a limited number of
bytes only: then a text that does not fit is written as far as it fits.
-/

set_option autoImplicit false

namespace Scriptlet

/-- The words for an output that cannot take more. -/
def sinkFullWords : String := "sink full"

/-- The bytes written so far, and the room that is left if it is limited. -/
structure Sink where
  bytes : ByteArray
  room : Option Nat

namespace Sink

/-- An empty sink. -/
def empty (room : Option Nat) : Sink := ⟨.empty, room⟩

/-- Whether there is room for all of a text. -/
def fits (s : Sink) (text : String) : Bool :=
  match s.room with
  | none => true
  | some room => decide (text.utf8ByteSize ≤ room)

/-- Writes a text as far as there is room for it. -/
def write (s : Sink) (text : String) : Sink :=
  let bytes := text.toUTF8
  match s.room with
  | none => { s with bytes := s.bytes ++ bytes }
  | some room =>
    { s with bytes := s.bytes ++ bytes.extract 0 room, room := some (room - bytes.size) }

end Sink

end Scriptlet
