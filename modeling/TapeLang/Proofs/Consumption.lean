import TapeLang.Proofs.Cancellation
import TapeLang.Proofs.Hosts

/-!
# What a run reads

A host with its input at hand gives out its bytes in order, one for each request, and cancels a run
that asks for more.  So what a run has read is the first part of the input, and what is left is the
rest (`ReadsFrom`).

A run can tell two inputs apart only by reading a byte in which they differ: as long as no more is
asked for than the bytes that they have in common, the runs on both go in step
(`together_of_take_eq`).

Main statement: `recorded_reads_first`, on runs that complete and on runs that ask for too much.
-/

namespace TapeLang

/-- The bytes that some calls are answered, in order. -/
def bytesRead (events : List Event) : List UInt8 := events.filterMap Event.byte?

theorem bytesRead_concat (events : List Event) (e : Event) :
    bytesRead (events ++ [e]) = bytesRead events ++ e.byte?.toList := by
  cases hbyte : e.byte? <;> simp [bytesRead, hbyte]

theorem Event.isSome_byte? {e : Event} (h : e.cancels = false) : e.byte?.isSome = e.isInput := by
  cases e with
  | input answer => cases answer <;> first | rfl | cases h
  | output v => rfl
  | dump cells pointer => rfl
  | poll cancel => rfl

/-- If no answer stops the run, then every request is answered a byte. -/
theorem length_bytesRead {events : List Event} (h : ∀ e ∈ events, e.cancels = false) :
    (bytesRead events).length = requests events := by
  rw [bytesRead, List.length_filterMap_eq_countP, requests]
  exact List.countP_congr fun e he => by rw [Event.isSome_byte? (h e he)]

/-! ### The host and its input -/

/-- The host behind some calls, if it had this input at first and watches no flag. -/
structure ReadsFrom (input : List UInt8) (events : List Event) (b : Buffered) : Prop where
  watching : b.watching = false
  left : b.input = input.drop (requests events)
  asked : b.requests = requests events
  read : bytesRead events = input.take (requests events)

variable {input input' : List UInt8} {events : List Event} {b b' : Buffered}

theorem readsFrom_start (input : List UInt8) : ReadsFrom input [] { input, watching := false } :=
  ⟨rfl, rfl, rfl, rfl⟩

/-- A request is answered the next byte. -/
theorem ReadsFrom.answer_eq (h : ReadsFrom input events b) :
    b.read.1 = input[requests events]? := by
  rw [Buffered.read, h.left, List.head?_drop]

/-- A call that asks for nothing leaves the input as it is. -/
theorem ReadsFrom.concat_of_isInput_eq_false (h : ReadsFrom input events b) {e : Event}
    (he : e.isInput = false) (hbyte : e.byte? = none) (hwatching : b'.watching = b.watching)
    (hleft : b'.input = b.input) (hrequests : b'.requests = b.requests) :
    ReadsFrom input (events ++ [e]) b' := by
  have hsame : requests (events ++ [e]) = requests events := by simp [requests_concat, he]
  constructor
  · rw [hwatching, h.watching]
  · rw [hleft, h.left, hsame]
  · rw [hrequests, h.asked, hsame]
  · rw [bytesRead_concat, hbyte, Option.toList_none, List.append_nil, h.read, hsame]

/-- Every call keeps the host reading its input in order. -/
theorem ReadsFrom.take (h : ReadsFrom input events b) {e : Event} (hgives : Buffered.host.Gives b e) :
    ReadsFrom input (events ++ [e]) (Buffered.host.take b e) := by
  -- Only a request takes a byte: the next one, if there is any.
  cases e with
  | input answer =>
    obtain rfl : b.read.1 = answer := hgives
    have hnext : requests (events ++ [.input b.read.1]) = requests events + 1 :=
      requests_concat events (.input b.read.1)
    constructor
    · exact h.watching
    · rw [hnext, ← List.tail_drop, ← h.left]
      rfl
    · rw [hnext, ← h.asked]
      rfl
    · rw [bytesRead_concat, hnext, List.take_add_one, h.read, Event.byte?, h.answer_eq]
  | output v => exact h.concat_of_isInput_eq_false rfl rfl rfl rfl rfl
  | dump cells pointer => exact h.concat_of_isInput_eq_false rfl rfl rfl rfl rfl
  | poll cancel => exact h.concat_of_isInput_eq_false rfl rfl rfl rfl rfl

/-- Hosts with the same first bytes do alike, as long as no more is asked for. -/
theorem mirrors_readsFrom {k : Nat} (htake : input'.take k = input.take k) :
    Buffered.host.Mirrors Buffered.host (fun events => requests events ≤ k)
      (fun events b b' => ReadsFrom input events b ∧ ReadsFrom input' events b') := by
  rintro events b b' e ⟨h, h'⟩ hgives hallowed
  have hgives' : Buffered.host.Gives b' e := by
    cases e with
    -- Within the limit the next byte is one of the first `k`, which are the same in both inputs.
    | input answer =>
      obtain rfl : b.read.1 = answer := hgives
      have hlt : requests events < k := by
        rw [requests_concat] at hallowed
        exact hallowed
      show b'.read.1 = b.read.1
      rw [h.answer_eq, h'.answer_eq, ← List.getElem?_take_of_lt hlt, htake,
        List.getElem?_take_of_lt hlt]
    | output v => trivial
    | dump cells pointer => trivial
    -- Neither host watches its flag, so both answer no.
    | poll cancel =>
      obtain rfl : (b.watching && b.stopped) = cancel := hgives
      show (b'.watching && b'.stopped) = (b.watching && b.stopped)
      rw [h.watching, h'.watching, Bool.false_and, Bool.false_and]
  exact ⟨hgives', h.take hgives, h'.take hgives'⟩

namespace Machine

open Progress

variable {range : CellRange} {program : Block}

/-- **Runs on inputs with the same first bytes go in step** until more is asked for. -/
theorem together_of_take_eq (range : CellRange) (program : Block) (n : Nat) {k : Nat}
    (htake : input'.take k = input.take k)
    (hle : requests (recorded range Buffered.host program { input, watching := false } n).calls ≤
      k) :
    Together (fun events b b' => ReadsFrom input events b ∧ ReadsFrom input' events b')
      (recorded range Buffered.host program { input, watching := false } n)
      (recorded range Buffered.host program { input := input', watching := false } n) :=
  recorded_together (mirrors_readsFrom htake)
    (fun _ _ hprefix hle => Nat.le_trans (requests_mono hprefix) hle) program
    ⟨readsFrom_start input, readsFrom_start input'⟩ n hle

/-- A host that watches no flag cancels a run at a request that it has no byte for. -/
theorem input_of_advance_cancelled {s : State} {t t' : Traced Buffered} {tape : Tape}
    (hreads : ReadsFrom input t.events.toList t.host)
    (hnext : advance range Buffered.host.traced s t = .ended .cancelled tape t') :
    (∃ next, s.step range = .input next) ∧ s.tape = tape ∧
      t'.events.toList = t.events.toList ++ [.input none] ∧
      input.length ≤ requests t.events.toList := by
  unfold advance at hnext
  -- Of all steps only those that ask can end a run as cancelled.
  cases hstep : s.step range with
  | halt => simp [hstep] at hnext
  | silent next => simp [hstep] at hnext
  | output v next => simp [hstep] at hnext
  | dump next => simp [hstep] at hnext
  | input next =>
    simp only [hstep, Host.traced_input] at hnext
    have hanswer : (Buffered.host.input t.host).1 = input[requests t.events.toList]? :=
      hreads.answer_eq
    rw [← List.getElem?_eq_none_iff, ← hanswer]
    cases hbyte : (Buffered.host.input t.host).1 with
    | some b => simp [hbyte] at hnext
    | none =>
      simp only [hbyte, ended.injEq, true_and] at hnext
      obtain ⟨htape, rfl⟩ := hnext
      exact ⟨⟨next, rfl⟩, htape, Array.toList_push, rfl⟩
  | poll next =>
    have hpoll : (Buffered.host.poll t.host).1 = false := by
      simp [Buffered.host, hreads.watching]
    simp [hstep, Host.traced_poll, hpoll] at hnext

/-- A run asks for no more than there is, as long as it is not stopped. -/
theorem requests_le_length {n : Nat} {s : State} {t : Traced Buffered}
    (hn : recorded range Buffered.host program { input, watching := false } n = .running s t)
    (hreads : ReadsFrom input t.events.toList t.host) :
    requests t.events.toList ≤ input.length := by
  have hunstopped := unstopped_recorded range Buffered.host program { input, watching := false } n
  rw [hn] at hunstopped
  rw [← length_bytesRead hunstopped, hreads.read]
  exact List.length_take_le' _ _

/-- A run that completes does the same on an input with the same first bytes. -/
theorem completes_of_take_eq {n : Nat} {tape : Tape} {t : Traced Buffered}
    (hn : recorded range Buffered.host program { input, watching := false } n =
      .ended .completed tape t)
    (htake : input'.take (bytesRead t.events.toList).length =
      input.take (bytesRead t.events.toList).length) :
    ∃ t', recorded range Buffered.host program { input := input', watching := false } n =
        .ended .completed tape t' ∧ t'.events = t.events ∧
      t'.host.requests = (bytesRead t.events.toList).length ∧
      t'.host.input = input'.drop (bytesRead t.events.toList).length := by
  -- A run that completes has read a byte with each of its requests, so that the limit is the number
  -- of these bytes.
  have hunstopped := unstopped_recorded range Buffered.host program { input, watching := false } n
  rw [hn] at hunstopped
  rw [length_bytesRead hunstopped] at htake ⊢
  have htogether := together_of_take_eq range program n htake
    (by rw [hn]; exact Nat.le_refl _)
  rw [hn] at htogether
  obtain ⟨t', hn', hcalls, -, hreads⟩ := htogether.of_ended
  exact ⟨t', hn', hcalls.symm, hreads.asked, hreads.left⟩

/-- A run that is cancelled comes to its last request on every longer input, too. -/
theorem goes_on_of_cancelled {n : Nat} {tape : Tape} {t : Traced Buffered}
    (hn : recorded range Buffered.host program { input, watching := false } n =
      .ended .cancelled tape t) :
    ∃ before, t.events.toList = before ++ [.input none] ∧
      ∀ b more, ∃ m s t',
        recorded range Buffered.host program
          { input := input ++ b :: more, watching := false } m = .running s t' ∧
        s.tape = tape ∧ t'.events.toList = before ∧
        (recorded range Buffered.host program
          { input := input ++ b :: more, watching := false } (m + 1)).calls =
            before ++ [.input (some b)] := by
  -- Before it was cancelled the run went on, and its last step was a request for a byte behind the
  -- input.
  obtain ⟨m, s, u, hm, hm'⟩ := exists_running_of_ended hn
  have hself := together_of_take_eq range program m (rfl : input.take _ = input.take _)
    (Nat.le_refl _)
  rw [hm] at hself
  obtain ⟨_, _, _, hreads, -⟩ := hself.of_running
  rw [recorded_succ, hm, andThen] at hm'
  obtain ⟨⟨next, hnext⟩, htape, hcalls, hle⟩ := input_of_advance_cancelled hreads hm'
  have hlength := Nat.le_antisymm (requests_le_length hm hreads) hle
  refine ⟨u.events.toList, hcalls, fun b more => ?_⟩
  -- Up to the last request the longer input has the same bytes.
  have htake : (input ++ b :: more).take input.length = input.take input.length := by simp
  have htogether := together_of_take_eq range program m htake
    (by rw [hm]; exact Nat.le_of_eq hlength)
  rw [hm] at htogether
  obtain ⟨t', hm'', hcalls', -, hreads'⟩ := htogether.of_running
  refine ⟨m, s, t', hm'', htape, by rw [hcalls'], ?_⟩
  have hanswer : (Buffered.host.input t'.host).1 = some b := by
    rw [show (Buffered.host.input t'.host).1 = _ from hreads'.answer_eq, hlength]
    simp
  rw [recorded_succ, hm'', andThen, advance]
  simp only [hnext, Host.traced_input, hanswer]
  simp [calls, Progress.host, hcalls']

/-- **A run depends on what it reads of the input, and on nothing else.**  A run that completes does
the same on every input that starts with the bytes it has read; it makes one request for each of them
and leaves all bytes behind them.  A run that is cancelled has asked for more than there is; on every
longer input it comes to this request in the same way, and is answered the first byte of those that
were added. -/
theorem recorded_reads_first (range : CellRange) (program : Block) (input : List UInt8) :
    let run := fun input =>
      recorded range Buffered.host program { input, watching := false }
    (∀ n tape t, run input n = .ended .completed tape t →
      let k := (bytesRead t.events.toList).length
      ∀ input', input'.take k = input.take k →
        ∃ t', run input' n = .ended .completed tape t' ∧ t'.events = t.events ∧
          t'.host.requests = k ∧ t'.host.input = input'.drop k) ∧
    ∀ n tape t, run input n = .ended .cancelled tape t →
      ∃ before, t.events.toList = before ++ [.input none] ∧
        ∀ b more, ∃ m s t', run (input ++ b :: more) m = .running s t' ∧ s.tape = tape ∧
          t'.events.toList = before ∧
          (run (input ++ b :: more) (m + 1)).calls = before ++ [.input (some b)] := by
  exact ⟨fun _ _ _ hn _ htake => completes_of_take_eq hn htake, fun _ _ _ hn => goes_on_of_cancelled hn⟩

/-- A program that hands back what it reads until it reads a zero, with a zero in its input and
without one. -/
theorem recorded_reads_first_echo :
    let program : Block := .op .input (.loop (.op .output (.op .input .done)) .done)
    let run := fun input => recorded .bytes Buffered.host program { input, watching := false }
    (∃ tape t t', run [7, 0, 5] 9 = .ended .completed tape t ∧
      run [7, 0] 9 = .ended .completed tape t' ∧ t'.events = t.events ∧ t'.host.requests = 2 ∧
      t'.host.input = []) ∧
    ∃ tape t before m s t', run [7] 4 = .ended .cancelled tape t ∧
      t.events.toList = before ++ [.input none] ∧ run [7, 9] m = .running s t' ∧ s.tape = tape ∧
      (run [7, 9] (m + 1)).calls = before ++ [.input (some 9)] := by
  intro program run
  constructor
  · obtain ⟨tape, t, hn, hread⟩ : ∃ tape t, run [7, 0, 5] 9 = .ended .completed tape t ∧
        bytesRead t.events.toList = [7, 0] := ⟨_, _, rfl, by decide⟩
    obtain ⟨t', hn', hevents, hrequests, hleft⟩ :=
      (recorded_reads_first .bytes program [7, 0, 5]).1 9 tape t hn [7, 0] (by rw [hread]; rfl)
    rw [hread] at hrequests hleft
    exact ⟨tape, t, t', hn, hn', hevents, hrequests, hleft⟩
  · obtain ⟨tape, t, hn⟩ : ∃ tape t, run [7] 4 = .ended .cancelled tape t := ⟨_, _, rfl⟩
    obtain ⟨before, hbefore, hlonger⟩ :=
      (recorded_reads_first .bytes program [7]).2 4 tape t hn
    obtain ⟨m, s, t', hm, htape, -, hcalls⟩ := hlonger 9 []
    exact ⟨tape, t, before, m, s, t', hn, hbefore, hm, htape, hcalls⟩

end Machine
end TapeLang
