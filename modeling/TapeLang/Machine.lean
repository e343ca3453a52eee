import TapeLang.Host.Basic
import TapeLang.Program.Block
import TapeLang.Settings
import TapeLang.Tape

/-!
# The tape machine

A state of a run is a tape and a stack of frames, one for each loop that is being executed, above
the frame of the program itself.  A frame is a block and the rest of it that is still to be done.

`State.step` says what a state does next and leaves all dealings with the outside to the host: it
is pure, and a host's answer is an argument of the state that follows.  At the end of every block
the host is polled.  A loop is then left if the selected cell is zero and started anew if not; the
program itself is always left.

`Machine.runFor` lets a state and a host go on together for a number of steps.  A run ends
*completed* or *cancelled*; it has no errors.
-/

namespace TapeLang

/-- A block being executed. -/
structure Frame where
  block : Block
  /-- What is still to be done of it. -/
  rest : Block
  deriving DecidableEq, Repr

def Frame.start (block : Block) : Frame := ⟨block, block⟩

/-- A state of a run. -/
structure State where
  tape : Tape
  /-- The blocks being executed, innermost first. -/
  frames : List Frame
  deriving DecidableEq, Repr

/-- How a run ends. -/
inductive Outcome
  /-- The program came to its end. -/
  | completed
  /-- The host stopped it, when asked for input or when polled. -/
  | cancelled
  deriving DecidableEq, Repr

/-- What a state does next. -/
inductive Step
  /-- Nothing: the program came to its end. -/
  | halt
  /-- Go on without the host. -/
  | silent (next : State)
  /-- Hand a value to the host. -/
  | output (value : Cell) (next : State)
  /-- Show the tape to the host. -/
  | dump (next : State)
  /-- Ask the host for a byte; without one the run is cancelled. -/
  | input (next : UInt8 → State)
  /-- Ask the host whether to go on; if not, the run is cancelled. -/
  | poll (next : State)

namespace State

def start (program : Block) : State := ⟨.fresh, [.start program]⟩

def withTape (s : State) (tape : Tape) : State := { s with tape }

/-- The state with the selected cell set to a value, reduced into the range. -/
def store (range : CellRange) (s : State) (v : Cell) : State :=
  s.withTape (s.tape.write (range.wrap v))

/-- What an operation does, in a state that has already passed it. -/
def perform (range : CellRange) (s : State) : Op → Step
  | .increment => .silent (s.store range (s.tape.here + 1))
  | .decrement => .silent (s.store range (s.tape.here - 1))
  | .left => .silent (s.withTape s.tape.moveLeft)
  | .right => .silent (s.withTape s.tape.moveRight)
  | .output => .output s.tape.here s
  | .input => .input fun b => s.store range (Int64.ofNat b.toNat)
  | .dump => .dump s

/-- The state behind the end of the block in `frame`, with `outer` around it. -/
def leave (tape : Tape) (frame : Frame) (outer : List Frame) : State :=
  -- The program is in no loop, so that its end is left whatever the cell holds.
  if !outer.isEmpty && tape.here != 0 then ⟨tape, .start frame.block :: outer⟩ else ⟨tape, outer⟩

/-- **What a state does next**, with cells in the given range. -/
def step (range : CellRange) (s : State) : Step :=
  match s.frames with
  | [] => .halt
  | frame :: outer =>
    match frame.rest with
    | .done => .poll (leave s.tape frame outer)
    | .op o next => perform range ⟨s.tape, { frame with rest := next } :: outer⟩ o
    | .loop body next =>
      let passed : List Frame := { frame with rest := next } :: outer
      .silent ⟨s.tape, if s.tape.here = 0 then passed else .start body :: passed⟩

end State

/-! ### Runs -/

/-- How far a run has come.  What goes on is a state `α`, and a memory `β` is left behind. -/
inductive Progress (σ : Type) (α : Type := State) (β : Type := Tape)
  /-- It goes on. -/
  | running (state : α) (host : σ)
  /-- It is over; the memory is left behind. -/
  | ended (outcome : Outcome) (tape : β) (host : σ)

namespace Machine

variable {σ : Type}

def advance (range : CellRange) (host : Host σ) (s : State) (h : σ) : Progress σ :=
  match s.step range with
  | .halt => .ended .completed s.tape h
  | .silent next => .running next h
  | .output value next => .running next (host.output value h)
  | .dump next => .running next (host.dump s.tape.cells s.tape.pointer h)
  | .input next =>
    match host.input h with
    | (some b, h) => .running (next b) h
    | (none, h) => .ended .cancelled s.tape h
  | .poll next =>
    match host.poll h with
    | (true, h) => .ended .cancelled s.tape h
    | (false, h) => .running next h

/-- A run of so many steps, or fewer if it ends before. -/
def runFor (range : CellRange) (host : Host σ) : Nat → State → σ → Progress σ
  | 0, s, h => .running s h
  | n + 1, s, h =>
    match advance range host s h with
    | .running s h => runFor range host n s h
    | .ended outcome tape h => .ended outcome tape h

/-- So many steps of the run of a program, from a fresh tape. -/
def run (range : CellRange) (host : Host σ) (steps : Nat) (program : Block) (h : σ) : Progress σ :=
  runFor range host steps (.start program) h

end Machine
end TapeLang
