import StepMotion.Attempt

/-! Where messages go: a text that grows, with a limited room in bytes if there is one, and that may
be unable to pass on what it was given. -/
namespace StepMotion

structure Sink where
  text : String := ""
  room : Option Nat := none
  flushes : Bool := true

namespace Sink

/-- Writes a message whole or not at all. The failure is a reason in words. -/
def write (sink : Sink) (message : String) : Attempt String Sink :=
  let size := message.utf8ByteSize
  if sink.room.all (size ≤ ·) then
    .done { sink with text := sink.text ++ message, room := sink.room.map (· - size) }
  else .failed "sink full" sink

def flush (sink : Sink) : Attempt String Sink :=
  if sink.flushes then .done sink else .failed "flush failed" sink

end Sink
end StepMotion
