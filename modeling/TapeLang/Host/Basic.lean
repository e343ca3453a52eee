import TapeLang.Cell

/-!
# Hosts

A machine deals with the outside through its host and in no other way.  A host has a state of its
own, and each of the four calls may change it.  Two calls are answered, and both answers may cancel
the run: a request for input without a byte, and a poll with yes.

`Host.traced` is a host that passes every call on and writes it down together with its answer.  Two
runs deal with the outside in the same way if they leave the same events behind.

`Bare.host` is the least a host can be: it hands out the bytes it has, cancels a run that asks for
more, and keeps the values it is given.  It ignores dumps, and its polls never cancel.
-/

namespace TapeLang

/-- A **host**: the outside of a machine, with states `σ`. -/
structure Host (σ : Type) where
  /-- The next byte of input, or none to cancel the run. -/
  input : σ → Option UInt8 × σ
  /-- Take a value. -/
  output : Cell → σ → σ
  /-- Look at a row of cells and the place of the selected one. -/
  dump : List Cell → Nat → σ → σ
  /-- Is the run to be cancelled? -/
  poll : σ → Bool × σ

/-- The character whose code point a value is; surrogates and numbers out of range have none. -/
def character? (v : Cell) : Option Char :=
  if 0 ≤ v.toInt ∧ v.toInt.toNat.isValidChar then some (Char.ofNat v.toInt.toNat) else none

/-- The low eight bits of a value. -/
def lowByte (v : Cell) : UInt8 := UInt8.ofNat (v.toInt % 256).toNat

/-! ### Calls written down -/

/-- A call of a host, with its answer. -/
inductive Event
  /-- Input was asked for, and a byte was the answer or none. -/
  | input (answer : Option UInt8)
  | output (value : Cell)
  | dump (cells : List Cell) (pointer : Nat)
  /-- The host was polled, and yes was the answer or no. -/
  | poll (cancel : Bool)
  deriving DecidableEq, Repr

/-- The state of a host and the calls it has had. -/
structure Traced (σ : Type) where
  host : σ
  /-- The calls so far, in order. -/
  events : Array Event := #[]

/-- The host with its calls written down. -/
def Host.traced {σ : Type} (host : Host σ) : Host (Traced σ) where
  input t :=
    let (answer, h) := host.input t.host
    (answer, ⟨h, t.events.push (.input answer)⟩)
  output v t := ⟨host.output v t.host, t.events.push (.output v)⟩
  dump cells pointer t := ⟨host.dump cells pointer t.host, t.events.push (.dump cells pointer)⟩
  poll t :=
    let (cancel, h) := host.poll t.host
    (cancel, ⟨h, t.events.push (.poll cancel)⟩)

/-! ### Input and output only -/

/-- The state of a host with input and output only. -/
structure Bare where
  input : List UInt8 := []
  output : Array Cell := #[]
  deriving Repr

def Bare.host : Host Bare where
  input b := (b.input.head?, { b with input := b.input.tail })
  output v b := { b with output := b.output.push v }
  dump _ _ b := b
  poll b := (false, b)

end TapeLang
