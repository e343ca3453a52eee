import Mathlib.Data.List.Induction
import TapeLang.Proofs.Cancellation
import TapeLang.Proofs.Delivery
import TapeLang.Proofs.Lockstep

/-!
# Output that fails

The interactive host may have a writer with little room, or one whose flushes fail.  It goes on
without an answer to the machine and only sets its stop flag; the machine goes on too, until the
host is asked for input or polled the next time.

Whatever fails, the writer holds the first bytes of all that was to be written, as many as it has
room for (`Writer.Holds`).  And behind a failure the flag is never cleared and no byte is taken from
the channel (`Channel.Halts`), so that the next answer stops the run.

While a program runs, the state of its host may be changed from outside.  `host.amid change` is the
host of which `change` says what happens before each call; calls are counted from zero.  Its answers
are those of the host in the changed state, and so what is said of single calls of a host may be said
of it in any surroundings.

Main statement: `recorded_put_fails`, for runs amid anything that may happen outside.
-/

namespace TapeLang

variable {σ : Type}

/-! ### Hosts in their surroundings -/

/-- A host in its surroundings, and how many calls it has had. -/
structure Amid (σ : Type) where
  host : σ
  calls : Nat := 0
  deriving Repr

/-- The host as the next call finds it. -/
def Amid.now (change : Nat → σ → σ) (s : Amid σ) : σ := change s.calls s.host

namespace Host

/-- The host amid changes from outside. -/
def amid (change : Nat → σ → σ) (host : Host σ) : Host (Amid σ) where
  input s :=
    let (answer, h) := host.input (s.now change)
    (answer, ⟨h, s.calls + 1⟩)
  output v s := ⟨host.output v (s.now change), s.calls + 1⟩
  dump cells pointer s := ⟨host.dump cells pointer (s.now change), s.calls + 1⟩
  poll s :=
    let (cancel, h) := host.poll (s.now change)
    (cancel, ⟨h, s.calls + 1⟩)

variable (change : Nat → σ → σ) (host : Host σ) (s : Amid σ) (e : Event)

theorem take_amid :
    (host.amid change).take s e = ⟨host.take (s.now change) e, s.calls + 1⟩ := by
  cases e <;> rfl

theorem gives_amid : (host.amid change).Gives s e ↔ host.Gives (s.now change) e := by
  cases e <;> exact Iff.rfl

end Host

/-! ### What is to be written -/

namespace Event

/-- The bytes that a call is to write to the output: a value is written if it is a character. -/
def encoding : Event → List UInt8
  | input _ => []
  | output v => (character? v).toList.flatMap String.utf8EncodeChar
  | dump _ _ => []
  | poll _ => []

end Event

/-- The bytes that some calls are to write to the output, in order. -/
def encoding (events : List Event) : List UInt8 := events.flatMap Event.encoding

theorem encoding_concat (events : List Event) (e : Event) :
    encoding (events ++ [e]) = encoding events ++ e.encoding := by
  simp [encoding]

/-! ### What a writer holds -/

namespace Writer

/-- The writer holds what fits of the bytes that it was given, if it had this much room at
first. -/
structure Holds (room : Option Nat) (bytes : List UInt8) (w : Writer) : Prop where
  accepted : w.accepted.toList = bytes.take (room.getD bytes.length)
  room : w.room = room.map (· - bytes.length)

theorem Holds.write {room : Option Nat} {bytes : List UInt8} {w : Writer} (h : Holds room bytes w)
    (more : List UInt8) : Holds room (bytes ++ more) (w.write more).2 := by
  obtain ⟨haccepted, hroom⟩ := h
  constructor
  · rw [toList_accepted_write, haccepted, hroom]
    cases room with
    | none => simp [List.take_of_length_le]
    | some r => simp [List.take_append]
  · unfold Writer.write
    cases room with
    | none => simp [hroom]
    | some r =>
      rw [hroom]
      simp only [Option.map_some, List.length_append, Option.some.injEq]
      omega

end Writer

namespace Channel

theorem out_put (c : Channel) (v : Cell) :
    (c.put v).out = (c.out.write (Event.output v).encoding).2 := by
  unfold put
  cases hchar : character? v with
  | none =>
    obtain ⟨accepted, room, failsFlush⟩ := c.out
    cases room <;> simp [Event.encoding, hchar, Writer.write]
  | some char => simp [Event.encoding, hchar, Writer.writeThrough]

theorem out_read (c : Channel) : c.read.2.out = c.out := by
  unfold read
  grind

theorem out_awaitInput (c : Channel) : c.awaitInput.2.out = c.out := by
  rw [← out_read c]
  unfold awaitInput
  obtain ⟨reading, c'⟩ := c.read
  cases reading <;> rfl

/-- Every call writes what it is to write, as far as it fits. -/
theorem holds_take {room : Option Nat} {events : List Event} {c : Channel}
    (h : c.out.Holds room (encoding events)) (e : Event) :
    (host.take c e).out.Holds room (encoding (events ++ [e])) := by
  rw [encoding_concat]
  -- Only an output puts bytes into the writer.
  cases e with
  | input answer =>
    rw [show host.take c (.input answer) = c.awaitInput.2 from rfl, out_awaitInput, Event.encoding,
      List.append_nil]
    exact h
  | output v =>
    rw [show host.take c (.output v) = c.put v from rfl, out_put]
    exact h.write _
  | dump cells pointer =>
    rw [Event.encoding, List.append_nil]
    exact h
  | poll cancel =>
    rw [Event.encoding, List.append_nil]
    exact h

/-! ### Behind a failure -/

/-- Handing out the value fails: it is a character, and not all of it fits or the flush fails. -/
def FailsToPut (c : Channel) (v : Cell) : Prop :=
  ∃ char, character? v = some char ∧ (c.out.writeThrough (String.utf8EncodeChar char)).1 = false

/-- The host is stopped, and the bytes are still in the channel. -/
structure Halts (bytes : List UInt8) (c : Channel) : Prop where
  stopped : c.stopped = true
  pending : bytes <+: c.pending

variable {c : Channel} {bytes : List UInt8}

theorem halts_put {v : Cell} (h : c.FailsToPut v) : (c.put v).Halts c.pending := by
  obtain ⟨char, hchar, hfails⟩ := h
  unfold put
  simp only [hchar, hfails]
  exact ⟨by simp, List.prefix_rfl⟩

theorem Halts.undergo (h : c.Halts bytes) (happening : Happening) :
    (c.undergo happening).Halts bytes := by
  cases happening with
  | send more =>
    simp only [Channel.undergo, send]
    split
    · exact ⟨h.stopped, h.pending.trans (List.prefix_append _ _)⟩
    · exact h
  | close => exact ⟨h.stopped, h.pending⟩
  | stop => exact ⟨rfl, h.pending⟩
  | flush fails => exact ⟨h.stopped, h.pending⟩

/-- A stopped host takes nothing from the channel. -/
theorem Halts.awaitInput_eq (h : c.Halts bytes) : c.awaitInput = (none, c) := by
  simp [awaitInput, read_of_stopped h.stopped]

theorem Halts.take (h : c.Halts bytes) (e : Event) : (host.take c e).Halts bytes := by
  -- A stopped host writes no more, and its channel is not asked any more.
  cases e with
  | input answer =>
    rw [show host.take c (.input answer) = c.awaitInput.2 from rfl, h.awaitInput_eq]
    exact h
  | output v =>
    show (c.put v).Halts bytes
    unfold put
    split
    · exact h
    · exact ⟨by simp [h.stopped], h.pending⟩
  | dump cells pointer => exact ⟨h.stopped, h.pending⟩
  | poll cancel => exact h

/-- A stopped host stops the run with its next answer. -/
theorem Halts.of_gives (h : c.Halts bytes) {e : Event} (hgives : host.Gives c e) :
    e.byte? = none ∧ e.pollAnswer? ≠ some false := by
  -- It answers requests with nothing and polls with yes.
  cases e with
  | input answer =>
    obtain rfl : c.awaitInput.1 = answer := hgives
    rw [h.awaitInput_eq]
    exact ⟨rfl, by simp [Event.pollAnswer?]⟩
  | output v => exact ⟨rfl, by simp [Event.pollAnswer?]⟩
  | dump cells pointer => exact ⟨rfl, by simp [Event.pollAnswer?]⟩
  | poll cancel =>
    obtain rfl : c.stopped = cancel := hgives
    exact ⟨rfl, by simp [Event.pollAnswer?, h.stopped]⟩

/-! ### Amid anything that happens -/

/-- The interactive host amid anything that happens: `world` says what before each call.  What
happens while a request waits is counted among what happens before it. -/
def hostAmid (world : Nat → List Happening) : Host (Amid Channel) :=
  host.amid fun k c => (world k).foldl undergo c

variable {world : Nat → List Happening}

/-- The host as the next call finds it. -/
def found (world : Nat → List Happening) (s : Amid Channel) : Channel :=
  s.now fun k c => (world k).foldl undergo c

/-- What is kept by everything that may happen is kept until the next call. -/
theorem found_of_host {P : Channel → Prop} (hkept : ∀ c happening, P c → P (c.undergo happening))
    {s : Amid Channel} (h : P s.host) : P (found world s) :=
  List.foldlRecOn (world s.calls) undergo h fun c hc happening _ => hkept c happening hc

theorem holds_undergo {room : Option Nat} {bytes : List UInt8} (c : Channel)
    (happening : Happening) (h : c.out.Holds room bytes) :
    (c.undergo happening).out.Holds room bytes := by
  cases happening with
  | send more =>
    simp only [undergo, send]
    split <;> exact h
  | close => exact h
  | stop => exact h
  | flush fails => exact ⟨h.accepted, h.room⟩

variable {start : Amid Channel}

theorem after_concat_hostAmid (events : List Event) (e : Event) :
    ((hostAmid world).after start (events ++ [e])).host =
      host.take (found world ((hostAmid world).after start events)) e := by
  rw [Host.after_concat, hostAmid, Host.take_amid]
  rfl

/-- **The writer holds what fits** of all that was to be written. -/
theorem holds_after {room : Option Nat} (hstart : start.host.out.Holds room [])
    (events : List Event) :
    ((hostAmid world).after start events).host.out.Holds room (encoding events) := by
  induction events using List.reverseRecOn with
  | nil => exact hstart
  | append_singleton events e ih =>
    rw [after_concat_hostAmid]
    exact holds_take (found_of_host (P := fun c => c.out.Holds room _) holds_undergo ih) e

/-- **Behind a failure the host is stopped** and gives nothing away. -/
theorem halts_after {before : List Event} {v : Cell}
    (hfails : (found world ((hostAmid world).after start before)).FailsToPut v)
    (after : List Event) :
    ((hostAmid world).after start (before ++ .output v :: after)).host.Halts
      (found world ((hostAmid world).after start before)).pending := by
  -- The induction is on the calls behind the failure, the last one first taken off.
  induction after using List.reverseRecOn with
  | nil =>
    rw [after_concat_hostAmid]
    exact halts_put hfails
  | append_singleton after e ih =>
    rw [← List.cons_append, ← List.append_assoc, after_concat_hostAmid]
    exact (found_of_host (fun _ happening h => h.undergo happening) ih).take e

/-- No call behind a failure is answered a byte, or that the run is to go on. -/
theorem stops_of_gave {before after : List Event} {v : Cell}
    (hfails : (found world ((hostAmid world).after start before)).FailsToPut v)
    (hgave : (hostAmid world).Gave start (before ++ .output v :: after)) :
    ∀ e ∈ after, e.byte? = none ∧ e.pollAnswer? ≠ some false := by
  intro e he
  obtain ⟨front, back, rfl⟩ := List.append_of_mem he
  have hgives := hgave (before ++ .output v :: front) e back (by simp)
  rw [hostAmid, Host.gives_amid] at hgives
  have hhalts := halts_after hfails front
  exact (found_of_host (fun _ happening h => h.undergo happening) hhalts).of_gives hgives

end Channel

namespace Machine

open Progress Channel

/-- **A failed output is never lost silently.**  Whatever happens outside, and however much room the
writer has, it holds the first bytes of the characters handed out so far, as many as there is room
for.  Once a character could not be written as a whole or flushed, the host is stopped, no byte is
answered or taken from the channel any more, and the run comes to its end as cancelled. -/
theorem recorded_put_fails (range : CellRange) (program : Block) (c : Channel) (room : Option Nat)
    (world : Nat → List Happening) :
    let start : Amid Channel := { host := { c with out := { room } } }
    let run := recorded range (hostAmid world) program start
    (∀ n, (run n).host.host.host.out.accepted.toList =
      (encoding (run n).calls).take (room.getD (encoding (run n).calls).length)) ∧
    ∀ n before v after, (run n).calls = before ++ .output v :: after →
      (found world ((hostAmid world).after start before)).FailsToPut v →
      (run n).host.host.host.stopped = true ∧
      (∀ e ∈ after, e.byte? = none) ∧
      (found world ((hostAmid world).after start before)).pending <+:
        (run n).host.host.host.pending ∧
      ∃ m tape t, run m = .ended .cancelled tape t := by
  intro start run
  have hreached (n : Nat) := recorded_gave range (hostAmid world) program start n
  refine ⟨fun n => ?_, fun n before v after hcalls hfails => ?_⟩
  · have hholds : Writer.Holds room [] start.host.out :=
      ⟨by simp [start], by cases room <;> simp [start]⟩
    rw [(hreached n).1]
    exact (holds_after hholds (run n).calls).accepted
  have hhalts := halts_after hfails after
  rw [← hcalls, ← (hreached n).1] at hhalts
  have hgave := (hreached n).2
  rw [hcalls] at hgave
  refine ⟨hhalts.stopped, fun e he => (stops_of_gave hfails hgave e he).1, hhalts.pending, ?_⟩
  -- Behind the failure no call goes on, and so the run ends with the next one at the latest.
  have hfront : before ++ [.output v] <+: (run n).calls := ⟨after, by simp [hcalls]⟩
  refine exists_cancelled_of_stops hfront (by simp) fun m after' hcalls' e he => ?_
  have hgave' := (hreached m).2
  rw [hcalls', List.append_assoc] at hgave'
  exact (stops_of_gave hfails hgave' e he).2

/-- A byte is handed back twice as a character of two bytes, with room for three of them; the second
byte of the input is left in the channel. -/
theorem recorded_put_fails_partial :
    let program : Block := .op .input (.op .output (.op .output (.op .input .done)))
    let c : Channel := { pending := [200, 65], isOpen := false }
    let start : Amid Channel := { host := { c with out := { room := some 3 } } }
    let host := hostAmid fun _ => []
    let run := recorded .bytes host program start
    let before : List Event := [.input (some 200), .output 200]
    (run 4).calls = before ++ .output 200 :: [.input none] ∧
      (found (fun _ => []) (host.after start before)).FailsToPut 200 ∧
      (run 4).host.host.host.out.accepted.toList = [0xC3, 0x88, 0xC3] ∧
      (run 4).host.host.host.pending = [65] ∧
      ∃ m tape t, run m = .ended .cancelled tape t := by
  intro program c start host run before
  have hcalls : (run 4).calls = before ++ .output 200 :: [.input none] := by decide
  have hfails : (found (fun _ => []) (host.after start before)).FailsToPut 200 :=
    ⟨Char.ofNat 200, by decide, by decide⟩
  have hruns := (recorded_put_fails .bytes program c (some 3) fun _ => []).2 4 before 200 _ hcalls
    hfails
  exact ⟨hcalls, hfails, by decide, by decide, hruns.2.2.2⟩

end Machine
end TapeLang
