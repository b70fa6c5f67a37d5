import StackLang.IoFault

/-!
# The output sink

Where programs write. A sink may have room for a limited number of characters; a write that
does not fit stores the part that fits and fails, and so does every write after it. Programs
write ASCII only, so a character is a byte. A flush, whether or not it fails, leaves a record of
what had been written before it, so a sink tells flushes that come late from those that come early.
-/

set_option autoImplicit false

namespace StackLang

/-- What has been written, and how much more has room. -/
structure Sink where
  text : String := ""
  /-- Room left; `none` is no limit. -/
  room : Option Nat := none
  /-- What had been written at each flush, the last flush first. -/
  flushes : List String := []
  /-- Whether flushing fails. -/
  flushFails : Bool := false
deriving DecidableEq

namespace Sink

/-- Writes a text, as far as it fits. -/
def write (s : Sink) (text : String) : Sink × Except IoFault Unit :=
  match s.room with
  | none => ({ s with text := s.text ++ text }, .ok ())
  | some room =>
    if text.length ≤ room then
      ({ s with text := s.text ++ text, room := some (room - text.length) }, .ok ())
    else
      ({ s with text := s.text ++ String.ofList (text.toList.take room), room := some 0 },
        .error .sinkFull)

/-- Without a limit everything is written. -/
theorem write_of_room_none {s : Sink} (h : s.room = none) (text : String) :
    s.write text = ({ s with text := s.text ++ text }, .ok ()) := by
  simp [write, h]

/-- A text that fits is written, and takes its room. -/
theorem write_of_length_le {s : Sink} {room : Nat} (h : s.room = some room) {text : String}
    (hfit : text.length ≤ room) :
    s.write text =
      ({ s with text := s.text ++ text, room := some (room - text.length) }, .ok ()) := by
  simp [write, h, hfit]

/-- Of a text that does not fit, the part that fits is written, and no room is left. -/
theorem write_of_lt_length {s : Sink} {room : Nat} (h : s.room = some room) {text : String}
    (hfit : room < text.length) :
    s.write text =
      ({ s with text := s.text ++ String.ofList (text.toList.take room), room := some 0 },
        .error .sinkFull) := by
  simp [write, h, Nat.not_le.2 hfit]

/-- Flushes the sink. What was written is not changed by it. -/
def flush (s : Sink) : Sink × Except IoFault Unit :=
  ({ s with flushes := s.text :: s.flushes },
    if s.flushFails then .error .flushRefused else .ok ())

end Sink

end StackLang
