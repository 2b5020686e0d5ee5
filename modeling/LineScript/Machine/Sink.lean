/-!
# Output

A run prints into a sink, which passes every piece of text on to a writer of the host.  The host's
writer may refuse a piece, and it may refuse to be flushed.
-/

namespace LineScript

/-- What a writer of the host does, by the text that it holds. -/
structure Writer where
  /-- What it holds after a piece of text was offered, and whether it took all of the piece. -/
  take : String → String → String × Bool
  canFlush : String → Bool

namespace Writer

structure Reliable (w : Writer) : Prop where
  takes : ∀ held piece, w.take held piece = (held ++ piece, true)
  flushes : ∀ held, w.canFlush held = true

def buffer : Writer where
  take held piece := (held ++ piece, true)
  canFlush _ := true

/-- Refuses a piece of text that would take it past a number of bytes, and cannot be flushed while
it is exactly full. -/
def limited (bytes : Nat) : Writer where
  take held piece :=
    if held.utf8ByteSize + piece.utf8ByteSize ≤ bytes then (held ++ piece, true) else (held, false)
  canFlush held := held.utf8ByteSize ≠ bytes

def ofLimit : Option Nat → Writer
  | none => buffer
  | some bytes => limited bytes

theorem reliable_buffer : buffer.Reliable where
  takes _ _ := rfl
  flushes _ := rfl

end Writer

structure Sink where
  text : String := ""
  writer : Writer := .buffer

namespace Sink

def write (s : Sink) (piece : String) : Sink × Bool :=
  if piece.isEmpty then (s, true)
  else
    let (text, taken) := s.writer.take s.text piece
    ({ s with text }, taken)

def canFlush (s : Sink) : Bool :=
  s.writer.canFlush s.text

structure Holds (s : Sink) (text : String) : Prop where
  text : s.text = text
  reliable : s.writer.Reliable

theorem write_of_reliable {s : Sink} (reliable : s.writer.Reliable) (piece : String) :
    s.write piece = ({ s with text := s.text ++ piece }, true) := by
  rw [write]
  split
  · rename_i empty
    obtain rfl : piece = "" := by simpa using empty
    simp
  · rw [reliable.takes]

end Sink

end LineScript
