import TapeLang.Dump
import TapeLang.Host.Basic

/-!
# An interactive host

Input reaches this host through a channel, byte by byte, while the machine runs; output and dumps
go to two writers.  A stop flag cancels the run at the next poll and at the next request for input.

A request finds a byte in the channel, or the channel closed, or it waits.  A closed channel that is
used up answers with the *end byte* if there is one and else cancels.

A value is written as the UTF-8 of the character whose code point it is, and flushed; a value that
is no character is dropped.  Output that fails sets the stop flag, so that no failure is lost; a
dump that fails is dropped.

A writer takes bytes, perhaps only so many.  A text that does not fit leaves the part that fits and
fails.  After a text is taken the writer is flushed, which may fail too.
-/

namespace TapeLang

/-! ### Writers -/

/-- A sink for bytes. -/
structure Writer where
  accepted : Array UInt8 := #[]
  /-- How many more bytes there is room for; `none` for any number. -/
  room : Option Nat := none
  /-- Flushing fails. -/
  failsFlush : Bool := false
  deriving Repr

namespace Writer

/-- Take bytes, as many as fit.  The answer is whether all did. -/
def write (w : Writer) (bytes : List UInt8) : Bool × Writer :=
  match w.room with
  | none => (true, { w with accepted := w.accepted ++ bytes })
  | some room =>
    (bytes.length ≤ room,
      { w with accepted := w.accepted ++ bytes.take room, room := some (room - bytes.length) })

/-- Take bytes and flush.  The answer is whether both succeeded. -/
def writeThrough (w : Writer) (bytes : List UInt8) : Bool × Writer :=
  let (fits, w) := w.write bytes
  (fits && !w.failsFlush, w)

/-- A writer takes the part that fits. -/
theorem toList_accepted_write (w : Writer) (bytes : List UInt8) :
    (w.write bytes).2.accepted.toList =
      w.accepted.toList ++ bytes.take (w.room.getD bytes.length) := by
  unfold write
  cases h : w.room <;> simp

end Writer

/-! ### The host -/

/-- The state of an interactive host. -/
structure Channel where
  /-- The bytes sent and not yet read. -/
  pending : List UInt8 := []
  /-- More bytes may be sent. -/
  isOpen : Bool := true
  stopped : Bool := false
  /-- What a closed channel answers once it is used up. -/
  endByte : Option UInt8 := none
  /-- Where values go. -/
  out : Writer := {}
  /-- Where dumps go. -/
  dumpOut : Writer := {}
  deriving Repr

namespace Channel

inductive Reading
  | byte (b : UInt8)
  | cancel
  /-- No answer yet. -/
  | waiting
  deriving DecidableEq, Repr

def stop (c : Channel) : Channel := { c with stopped := true }

/-- Send bytes.  A closed channel takes none; the answer is how many it took. -/
def send (c : Channel) (bytes : List UInt8) : Nat × Channel :=
  if c.isOpen then (bytes.length, { c with pending := c.pending ++ bytes }) else (0, c)

def close (c : Channel) : Channel := { c with isOpen := false }

/-- A request for input.  A stopped host cancels and takes nothing. -/
def read (c : Channel) : Reading × Channel :=
  if c.stopped then (.cancel, c)
  else
    match c.pending with
    | b :: rest => (.byte b, { c with pending := rest })
    | [] =>
      if c.isOpen then (.waiting, c)
      else (c.endByte.elim .cancel .byte, c)

/-- A value is written; a failure sets the stop flag. -/
def put (v : Cell) (c : Channel) : Channel :=
  match character? v with
  | none => c
  | some char =>
    let (ok, out) := c.out.writeThrough (String.utf8EncodeChar char)
    { c with out, stopped := c.stopped || !ok }

/-- A dump is written; a failure changes nothing else. -/
def putDump (cells : List Cell) (pointer : Nat) (c : Channel) : Channel :=
  { c with dumpOut := (c.dumpOut.writeThrough (Dump.render cells pointer).toUTF8.toList).2 }

/-- A request for input by a machine.  One that would wait is waited for until somebody sets the
stop flag, as nobody else sends bytes during a run. -/
def awaitInput (c : Channel) : Option UInt8 × Channel :=
  match c.read with
  | (.byte b, c) => (some b, c)
  | (.cancel, c) => (none, c)
  | (.waiting, c) => (none, c.stop)

def host : Host Channel where
  input := awaitInput
  output := put
  dump := putDump
  poll c := (c.stopped, c)

end Channel
end TapeLang
