import TapeLang.Dump
import TapeLang.Host.Basic

/-!
# A host with its input at hand

This host holds all input from the start and keeps everything it is given.  It cancels a run that
asks for more input than there is.  It may also watch a stop flag; the flag is looked at by polls
only, so that input is still handed out after the flag is set.
-/

namespace TapeLang

/-- The state of a host with its input at hand. -/
structure Buffered where
  /-- The bytes not yet handed out. -/
  input : List UInt8 := []
  /-- Every value taken, in order. -/
  output : Array Cell := #[]
  /-- The text of every dump, in order. -/
  dumps : Array String := #[]
  requests : Nat := 0
  watching : Bool := true
  stopped : Bool := false
  deriving Repr

namespace Buffered

def stop (b : Buffered) : Buffered := { b with stopped := true }

def read (b : Buffered) : Option UInt8 × Buffered :=
  (b.input.head?, { b with input := b.input.tail, requests := b.requests + 1 })

def host : Host Buffered where
  input := read
  output v b := { b with output := b.output.push v }
  dump cells pointer b := { b with dumps := b.dumps.push (Dump.render cells pointer) }
  poll b := (b.watching && b.stopped, b)

/-- The low bytes of the values taken. -/
def outputBytes (b : Buffered) : List UInt8 := b.output.toList.map lowByte

/-- The values taken, as text; those that are no characters are left out. -/
def outputText (b : Buffered) : String := String.ofList (b.output.toList.filterMap character?)

end Buffered
end TapeLang
