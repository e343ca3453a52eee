import TapeLang.Host.Basic

/-!
# Stopping on schedule

`Host.scheduled` is a host that is stopped at a given time: just before the call of some kind that
has a given number, or before any poll beyond a limit.  Everything else is passed on, so that the
host itself decides what a stop does.
-/

namespace TapeLang

/-- A kind of call. -/
inductive CallKind
  | input
  | output
  | dump
  | poll
  deriving DecidableEq, Repr

/-- When to stop a host.  Calls of a kind are counted from one. -/
structure Schedule where
  /-- Stop before the call of this kind with this number. -/
  before : Option (CallKind × Nat) := none
  /-- Stop before every poll beyond this number of polls. -/
  pollLimit : Option Nat := none
  deriving Repr

/-- The call of the kind with the number `n` is one to stop before. -/
def Schedule.isDue (schedule : Schedule) (kind : CallKind) (n : Nat) : Bool :=
  schedule.before == some (kind, n) ||
    (kind == .poll && schedule.pollLimit.any fun limit => limit < n)

/-- How many calls of each kind there were. -/
structure CallCount where
  input : Nat := 0
  output : Nat := 0
  dump : Nat := 0
  poll : Nat := 0
  deriving DecidableEq, Repr

def CallCount.of (n : CallCount) : CallKind → Nat
  | .input => n.input
  | .output => n.output
  | .dump => n.dump
  | .poll => n.poll

def CallCount.succ (n : CallCount) : CallKind → CallCount
  | .input => { n with input := n.input + 1 }
  | .output => { n with output := n.output + 1 }
  | .dump => { n with dump := n.dump + 1 }
  | .poll => { n with poll := n.poll + 1 }

/-- The state of a host and how many calls of each kind it has had. -/
structure Scheduled (σ : Type) where
  host : σ
  calls : CallCount := {}

/-- The state just before one more call: counted, and stopped if the call is due. -/
def Scheduled.count {σ : Type} (stop : σ → σ) (schedule : Schedule) (kind : CallKind)
    (s : Scheduled σ) : Scheduled σ :=
  let calls := s.calls.succ kind
  { host := if schedule.isDue kind (calls.of kind) then stop s.host else s.host, calls }

/-- The host stopped on schedule. -/
def Host.scheduled {σ : Type} (stop : σ → σ) (schedule : Schedule) (host : Host σ) :
    Host (Scheduled σ) where
  input s :=
    let s := s.count stop schedule .input
    let (answer, h) := host.input s.host
    (answer, { s with host := h })
  output v s :=
    let s := s.count stop schedule .output
    { s with host := host.output v s.host }
  dump cells pointer s :=
    let s := s.count stop schedule .dump
    { s with host := host.dump cells pointer s.host }
  poll s :=
    let s := s.count stop schedule .poll
    let (cancel, h) := host.poll s.host
    (cancel, { s with host := h })

end TapeLang
