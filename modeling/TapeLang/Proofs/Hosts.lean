import TapeLang.Host.Buffered
import TapeLang.Host.Channel
import TapeLang.Proofs.Encoding
import TapeLang.Proofs.Lockstep

/-!
# The interactive host and the host with its input at hand

Both hosts serve a program alike if they have the same input.  A channel that is closed hands out
the bytes that are left in it; then it cancels the run, as the other host does when its input is
used up, or it goes on with its end byte.  In the latter case the other host needs end bytes in its
input, as many as are asked for.

Meanwhile the channel host has written what the other one keeps: the text of the values taken, and
the dumps (`Channel.Shows`).  `Channel.Serves` puts both together, and every call keeps it
(`mirrors_serves`), so that the runs go in step.

Main statement: `recorded_channel_together_buffered`.
-/

namespace TapeLang

/-! ### Writers and requests -/

namespace Writer

/-- A writer that never fails: there is room for any number of bytes, and flushing succeeds. -/
structure Reliable (w : Writer) : Prop where
  room : w.room = none
  flushes : w.failsFlush = false

/-- The writer with more bytes taken. -/
def accept (w : Writer) (bytes : List UInt8) : Writer := { w with accepted := w.accepted ++ bytes }

@[simp]
theorem toList_accepted_accept (w : Writer) (bytes : List UInt8) :
    (w.accept bytes).accepted.toList = w.accepted.toList ++ bytes := by
  simp [accept]

theorem Reliable.accept {w : Writer} (hw : w.Reliable) (bytes : List UInt8) :
    (w.accept bytes).Reliable :=
  ⟨hw.room, hw.flushes⟩

theorem Reliable.writeThrough_eq {w : Writer} (hw : w.Reliable) (bytes : List UInt8) :
    w.writeThrough bytes = (true, w.accept bytes) := by
  simp [Writer.writeThrough, Writer.write, Writer.accept, hw.room, hw.flushes]

end Writer

/-- The call asks for input. -/
def Event.isInput : Event → Bool
  | input _ => true
  | output _ => false
  | dump _ _ => false
  | poll _ => false

/-- How often input was asked for. -/
def requests (events : List Event) : Nat := events.countP Event.isInput

theorem requests_concat (events : List Event) (e : Event) :
    requests (events ++ [e]) = requests events + if e.isInput then 1 else 0 := by
  simp [requests, List.countP_append, List.countP_singleton]

theorem requests_mono {events events' : List Event} (h : events <+: events') :
    requests events ≤ requests events' :=
  h.sublist.countP_le

namespace Buffered

theorem outputText_push (b : Buffered) (v : Cell) :
    outputText { b with output := b.output.push v } =
      b.outputText ++ String.ofList (character? v).toList := by
  cases hchar : character? v <;> simp [outputText, hchar]

end Buffered

namespace Channel

/-! ### A request -/

variable {c : Channel} {x : UInt8}

theorem awaitInput_of_pending {rest : List UInt8} (hstopped : c.stopped = false)
    (hpending : c.pending = x :: rest) :
    c.awaitInput = (some x, { c with pending := rest }) := by
  simp [awaitInput, read, hstopped, hpending]

/-- A closed channel that is used up answers with its end byte, or else cancels. -/
theorem awaitInput_of_closed (hstopped : c.stopped = false) (hpending : c.pending = [])
    (hclosed : c.isOpen = false) : c.awaitInput = (c.endByte, c) := by
  cases hend : c.endByte <;> simp [awaitInput, read, hstopped, hpending, hclosed, hend]

/-! ### Serving alike -/

/-- The writers show what the other host keeps: the text of its values, and its dumps one behind
the other. -/
structure Shows (c : Channel) (b : Buffered) : Prop where
  output : c.out.accepted.toList = b.outputText.toUTF8.toList
  dumps : c.dumpOut.accepted.toList = (String.join b.dumps.toList).toUTF8.toList

/-- A value is written as the character that it is, if it is one. -/
theorem put_eq (hout : c.out.Reliable) (v : Cell) :
    c.put v =
      { c with out := c.out.accept ((character? v).toList.flatMap String.utf8EncodeChar) } := by
  unfold Channel.put
  cases character? v with
  | none => simp [Writer.accept]
  | some char => simp [hout.writeThrough_eq]

theorem putDump_eq (hdumpOut : c.dumpOut.Reliable) (cells : List Cell) (pointer : Nat) :
    c.putDump cells pointer =
      { c with dumpOut := c.dumpOut.accept (Dump.render cells pointer).toUTF8.toList } := by
  unfold Channel.putDump
  rw [hdumpOut.writeThrough_eq]

theorem Shows.put {b : Buffered} (h : c.Shows b) (hout : c.out.Reliable) (v : Cell) :
    (c.put v).Shows { b with output := b.output.push v } := by
  rw [put_eq hout]
  refine ⟨?_, h.dumps⟩
  rw [b.outputText_push, Text.Utf8.toList_toUTF8, String.toList_append, List.flatMap_append,
    ← Text.Utf8.toList_toUTF8, ← h.output, String.toList_ofList, Writer.toList_accepted_accept]

theorem Shows.putDump {b : Buffered} (h : c.Shows b) (hdumpOut : c.dumpOut.Reliable)
    (cells : List Cell) (pointer : Nat) :
    (c.putDump cells pointer).Shows
      { b with dumps := b.dumps.push (Dump.render cells pointer) } := by
  rw [putDump_eq hdumpOut]
  refine ⟨h.output, ?_⟩
  rw [Writer.toList_accepted_accept, h.dumps, Array.toList_push, String.join_append,
    Text.Utf8.toList_toUTF8, Text.Utf8.toList_toUTF8, Text.Utf8.toList_toUTF8, String.toList_append,
    List.flatMap_append]
  simp

/-- The two hosts serve alike behind some calls: what is left for the first one is left for the
second one, perhaps with end bytes behind it.  If there is an end byte, then `total` bytes have been
asked for or are left. -/
structure Serves (endByte : Option UInt8) (total : Nat) (events : List Event) (c : Channel)
    (b : Buffered) : Prop where
  isOpen : c.isOpen = false
  stopped : c.stopped = false
  stopped' : b.stopped = false
  answersAtEnd : c.endByte = endByte
  out : c.out.Reliable
  dumpOut : c.dumpOut.Reliable
  shows : c.Shows b
  input : ∃ more, b.input = c.pending ++ more ∧ ∀ x ∈ more, endByte = some x
  length : endByte ≠ none → requests events + b.input.length = total

variable {endByte : Option UInt8} {total : Nat} {events : List Event} {b : Buffered}

/-- A request is answered alike, unless there is an end byte and more is asked for than there is. -/
theorem Serves.request (h : Serves endByte total events c b)
    (hallowed : endByte ≠ none → requests events + 1 ≤ total) :
    b.read.1 = c.awaitInput.1 ∧
      Serves endByte total (events ++ [.input c.awaitInput.1]) c.awaitInput.2 b.read.2 := by
  -- The host at hand has what is left in the channel and `more` end bytes behind it.
  obtain ⟨more, hinput, hmore⟩ := h.input
  have hrequests (answer : Option UInt8) : requests (events ++ [.input answer]) =
      requests events + 1 := requests_concat events (.input answer)
  cases hpending : c.pending with
  | cons x rest =>
    rw [hpending, List.cons_append] at hinput
    rw [awaitInput_of_pending h.stopped hpending, Buffered.read, hinput]
    refine ⟨rfl, { h with shows := ⟨h.shows.output, h.shows.dumps⟩, input := ?_, length := ?_ }⟩
    · exact ⟨more, rfl, hmore⟩
    · intro hend
      have hlength := h.length hend
      rw [hinput, List.length_cons] at hlength
      show requests (events ++ [.input (some x)]) + (rest ++ more).length = total
      rw [hrequests]
      omega
  | nil =>
    rw [hpending, List.nil_append] at hinput
    rw [awaitInput_of_closed h.stopped hpending h.isOpen, h.answersAtEnd, Buffered.read, hinput]
    cases more with
    | nil =>
      -- The second host has nothing left, and so there is no end byte.
      have hnone : endByte = none := by
        by_contra hend
        have hlength := h.length hend
        have hle := hallowed hend
        rw [hinput, List.length_nil] at hlength
        omega
      subst hnone
      refine ⟨rfl, { h with shows := ⟨h.shows.output, h.shows.dumps⟩, input := ?_, length := ?_ }⟩
      · exact ⟨[], by simp [hpending], by simp⟩
      · exact fun hend => absurd rfl hend
    | cons x more =>
      rw [List.forall_mem_cons] at hmore
      refine ⟨hmore.1.symm,
        { h with shows := ⟨h.shows.output, h.shows.dumps⟩, input := ?_, length := ?_ }⟩
      · exact ⟨more, by simp [hpending], hmore.2⟩
      · intro hend
        have hlength := h.length hend
        rw [hinput, List.length_cons] at hlength
        show requests (events ++ [.input endByte]) + more.length = total
        rw [hrequests]
        omega

/-- **Every call keeps the two hosts serving alike**, as long as no more is asked for than there
is. -/
theorem mirrors_serves (endByte : Option UInt8) (total : Nat) :
    Channel.host.Mirrors Buffered.host (fun events => endByte ≠ none → requests events ≤ total)
      (Serves endByte total) := by
  intro events c b e h hgives hallowed
  -- All other calls take no input, hence the account of the bytes stays.
  have hlength (e : Event) (he : e.isInput = false) (hend : endByte ≠ none) :
      requests (events ++ [e]) + b.input.length = total := by
    rw [requests_concat, he]
    exact h.length hend
  cases e with
  | input answer =>
    obtain rfl : c.awaitInput.1 = answer := hgives
    exact h.request fun hend => by simpa [requests_concat, Event.isInput] using hallowed hend
  | output v =>
    refine ⟨trivial, ?_⟩
    have hshows := h.shows.put h.out v
    have hput : Channel.host.take c (.output v) = c.put v := rfl
    rw [hput, put_eq h.out]
    rw [put_eq h.out] at hshows
    exact { h with
      out := h.out.accept _, shows := hshows, length := hlength (.output v) rfl }
  | dump cells pointer =>
    refine ⟨trivial, ?_⟩
    have hshows := h.shows.putDump h.dumpOut cells pointer
    have hput : Channel.host.take c (.dump cells pointer) = c.putDump cells pointer := rfl
    rw [hput, putDump_eq h.dumpOut]
    rw [putDump_eq h.dumpOut] at hshows
    exact { h with
      dumpOut := h.dumpOut.accept _, shows := hshows,
      length := hlength (.dump cells pointer) rfl }
  | poll cancel =>
    obtain rfl : c.stopped = cancel := hgives
    have hpoll : (b.watching && b.stopped) = c.stopped := by
      rw [h.stopped', h.stopped, Bool.and_false]
    exact ⟨hpoll, { h with length := hlength (.poll c.stopped) rfl }⟩

/-- Two hosts with the same input, the second one with end bytes behind it, serve alike at first. -/
theorem serves_start (input : List UInt8) (watching : Bool) {more : List UInt8}
    (hmore : ∀ x ∈ more, endByte = some x) :
    Serves endByte (input.length + more.length) [] { pending := input, isOpen := false, endByte }
      { input := input ++ more, watching } where
  isOpen := rfl
  stopped := rfl
  stopped' := rfl
  answersAtEnd := rfl
  out := ⟨rfl, rfl⟩
  dumpOut := ⟨rfl, rfl⟩
  shows := ⟨by simp [Buffered.outputText], by simp⟩
  input := ⟨more, rfl, hmore⟩
  length _ := by simp [requests]

end Channel

namespace Machine

open Progress

theorem together_of_serves {range : CellRange} {program : Block} {endByte : Option UInt8}
    {total : Nat} {c : Channel} {b : Buffered} (hserves : c.Serves endByte total [] b) (n : Nat)
    (hallowed : endByte ≠ none →
      requests (recorded range Channel.host program c n).calls ≤ total) :
    Together (fun _ => Channel.Shows) (recorded range Channel.host program c n)
      (recorded range Buffered.host program b n) := by
  have hmirrors := Channel.mirrors_serves endByte total
  have hinitial (events events' : List Event) (h : events <+: events')
      (hle : endByte ≠ none → requests events' ≤ total) (hend : endByte ≠ none) :
      requests events ≤ total :=
    Nat.le_trans (requests_mono h) (hle hend)
  exact (recorded_together hmirrors hinitial program hserves n hallowed).mono fun _ _ _ h => h.shows

/-- **The two hosts agree.**  With the same input, a closed channel without an end byte and the host
with its input at hand are in step at all times: the runs make the same calls, end alike or not at
all, and the writers show the text of the values and the dumps.  With an end byte the same holds for
as long as no more is asked for than there is, if the other host has any number of end bytes behind
its input. -/
theorem recorded_channel_together_buffered (range : CellRange) (program : Block)
    (input : List UInt8) (watching : Bool) :
    (∀ n, Together (fun _ => Channel.Shows)
      (recorded range Channel.host program { pending := input, isOpen := false } n)
      (recorded range Buffered.host program { input, watching } n)) ∧
    ∀ x k n,
      requests (recorded range Channel.host program
        { pending := input, isOpen := false, endByte := some x } n).calls ≤ input.length + k →
      Together (fun _ => Channel.Shows)
        (recorded range Channel.host program
          { pending := input, isOpen := false, endByte := some x } n)
        (recorded range Buffered.host program
          { input := input ++ List.replicate k x, watching } n) := by
  constructor
  · intro n
    have hmore : ∀ x ∈ ([] : List UInt8), none = some x := by simp
    have hserves := Channel.serves_start input watching hmore
    rw [List.append_nil] at hserves
    exact together_of_serves hserves n fun hend => absurd rfl hend
  · -- Any number of end bytes behind the input may stand for the one that the channel repeats.
    intro x k n hle
    have hmore : ∀ y ∈ List.replicate k x, some x = some y := fun y hy => by
      rw [(List.mem_replicate.mp hy).2]
    have hserves := Channel.serves_start input watching hmore
    rw [List.length_replicate] at hserves
    exact together_of_serves hserves n fun _ => hle

/-- A program that hands back each byte that it reads and then shows the tape, with two bytes of
input, an end byte that ends its loop, and one more that is not asked for. -/
theorem recorded_channel_together_buffered_echo :
    let program : Block := .op .input (.loop (.op .output (.op .input .done)) (.op .dump .done))
    let input : List UInt8 := [72, 200]
    let c : Channel := { pending := input, isOpen := false, endByte := some 0 }
    let b : Buffered := { input := input ++ List.replicate 2 0, watching := false }
    requests (recorded .bytes Channel.host program c 11).calls ≤ input.length + 2 ∧
      ∃ tape t t', recorded .bytes Channel.host program c 11 = .ended .completed tape t ∧
        recorded .bytes Buffered.host program b 11 = .ended .completed tape t' ∧
        t.events = t'.events ∧ t.host.Shows t'.host := by
  intro program input c b
  have hle : requests (recorded .bytes Channel.host program c 11).calls ≤ input.length + 2 := by
    decide
  have htogether := (recorded_channel_together_buffered .bytes program input false).2 0 2 11 hle
  obtain ⟨tape, t, hended⟩ :
      ∃ tape t, recorded .bytes Channel.host program c 11 = .ended .completed tape t :=
    ⟨_, _, rfl⟩
  rw [hended] at htogether
  obtain ⟨t', hended', hcalls, hshows⟩ := htogether.of_ended
  exact ⟨hle, tape, t, t', hended, hended', hcalls, hshows⟩

end Machine
end TapeLang
