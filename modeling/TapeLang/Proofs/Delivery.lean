import TapeLang.Host.Channel

/-!
# Bytes on their way through a channel

Bytes are sent to the interactive host, its channel is closed and its stop flag is set, all from
outside and at any time (`Happening`), while requests ask for the bytes in between.  A request that
would wait leaves the host as it is: to ask again is to go on waiting, or to give up and to come
back later.

`Delivers` is the account of such a history.  What has been sent is what has been answered and what
is still in the channel; or else the channel is closed and used up, and end bytes have been answered
behind all that was sent.  Every act keeps it (`Delivers.act`), and it decides what a request is
answered (`Delivers.read_eq`).

Main statement: `behind_delivers`, on every history from a fresh channel.
-/

namespace TapeLang.Channel

/-! ### Histories -/

/-- What may happen from outside. -/
inductive Happening
  | send (bytes : List UInt8)
  | close
  | stop
  /-- From now on flushing the output fails, or it succeeds again. -/
  | flush (fails : Bool)
  deriving DecidableEq, Repr

def undergo (c : Channel) : Happening → Channel
  | .send bytes => (c.send bytes).2
  | .close => c.close
  | .stop => c.stop
  | .flush fails => { c with out := { c.out with failsFlush := fails } }

/-- An act of a history. -/
inductive Act
  | outside (h : Happening)
  /-- A request for input, or one more look by a request that waits. -/
  | read
  deriving DecidableEq, Repr

def act (c : Channel) : Act → Channel
  | .outside h => c.undergo h
  | .read => c.read.2

/-- The host behind some acts. -/
def behind (c : Channel) (acts : List Act) : Channel := acts.foldl act c

def Reading.byte? : Reading → Option UInt8
  | byte b => some b
  | cancel => none
  | waiting => none

/-- What an act puts into the channel. -/
def accepts (c : Channel) : Act → List UInt8
  | .outside (.send bytes) => bytes.take (c.send bytes).1
  | .outside .close => []
  | .outside .stop => []
  | .outside (.flush _) => []
  | .read => []

/-- The byte that is answered, if there is a request and it has one. -/
def answers (c : Channel) : Act → List UInt8
  | .outside _ => []
  | .read => c.read.1.byte?.toList

/-- All bytes that the sends of a history put into the channel, in order. -/
def accepted (c : Channel) : List Act → List UInt8
  | [] => []
  | a :: acts => c.accepts a ++ (c.act a).accepted acts

/-- All bytes that the requests of a history are answered, in order. -/
def answered (c : Channel) : List Act → List UInt8
  | [] => []
  | a :: acts => c.answers a ++ (c.act a).answered acts

/-! ### The two flags -/

theorem isOpen_act (c : Channel) (a : Act) :
    (c.act a).isOpen = (c.isOpen && a != .outside .close) := by
  cases a with
  | outside h =>
    cases h with
    | send bytes => cases hopen : c.isOpen <;> simp [act, undergo, send, hopen]
    | close => simp [act, undergo, close]
    | stop => simp [act, undergo, stop]
    | flush fails => simp [act, undergo]
  | read => unfold act read; grind

theorem stopped_act (c : Channel) (a : Act) :
    (c.act a).stopped = (c.stopped || a == .outside .stop) := by
  cases a with
  | outside h =>
    cases h with
    | send bytes => cases hopen : c.isOpen <;> simp [act, undergo, send, hopen]
    | close => simp [act, undergo, close]
    | stop => simp [act, undergo, stop]
    | flush fails => simp [act, undergo]
  | read => unfold act read; grind

theorem isOpen_behind (c : Channel) (acts : List Act) :
    (c.behind acts).isOpen = true ↔ c.isOpen = true ∧ .outside .close ∉ acts := by
  induction acts generalizing c with
  | nil => simp [behind]
  | cons a acts ih =>
    rw [behind, List.foldl_cons, ← behind, ih, isOpen_act, Bool.and_eq_true, bne_iff_ne, ne_comm,
      List.mem_cons, not_or, and_assoc]

theorem stopped_behind (c : Channel) (acts : List Act) :
    (c.behind acts).stopped = true ↔ c.stopped = true ∨ .outside .stop ∈ acts := by
  induction acts generalizing c with
  | nil => simp [behind]
  | cons a acts ih =>
    rw [behind, List.foldl_cons, ← behind, ih, stopped_act, Bool.or_eq_true, beq_iff_eq,
      eq_comm (a := a), List.mem_cons, or_assoc]

/-! ### The account -/

/-- The account of a history: the bytes `sent`, the bytes `got`, and what the channel holds. -/
structure Delivers (endByte : Option UInt8) (sent got : List UInt8) (c : Channel) : Prop where
  answersAtEnd : c.endByte = endByte
  balance : sent = got ++ c.pending ∨
    c.pending = [] ∧ c.isOpen = false ∧ ∃ x k, endByte = some x ∧ got = sent ++ List.replicate k x

variable {endByte : Option UInt8} {sent got : List UInt8} {c : Channel}

/-- The first byte in the channel is the first one that was sent and not answered. -/
theorem Delivers.head?_pending (h : Delivers endByte sent got c) :
    c.pending.head? = sent[got.length]? := by
  obtain hahead | ⟨hpending, -, x, k, -, hgot⟩ := h.balance
  · rw [hahead, List.getElem?_append_right (Nat.le_refl _), Nat.sub_self, List.head?_eq_getElem?]
  · have hle : sent.length ≤ got.length := by simp [hgot]
    rw [hpending, List.getElem?_eq_none hle, List.head?_nil]

/-- What a request is answered: the next byte that was sent; if there is none it waits, and at
the end of a closed channel it is answered the end byte. -/
theorem Delivers.read_eq (h : Delivers endByte sent got c) :
    c.read.1 =
      if c.stopped then .cancel
      else match sent[got.length]? with
        | some b => .byte b
        | none => if c.isOpen then .waiting else endByte.elim .cancel .byte := by
  -- What is left in the channel is what was sent and not answered, so the account tells its first
  -- byte.
  rw [← h.head?_pending, ← h.answersAtEnd]
  unfold read
  cases c.stopped with
  | true => rfl
  | false =>
    cases c.pending with
    | cons b rest => rfl
    | nil => cases c.isOpen <;> rfl

/-- A request is entered into the account. -/
theorem Delivers.read (h : Delivers endByte sent got c) :
    Delivers endByte sent (got ++ c.read.1.byte?.toList) c.read.2 := by
  cases hstopped : c.stopped with
  | true => simpa [Channel.read, hstopped, Reading.byte?] using h
  | false =>
    -- Either some bytes that were sent are left, or the end byte has been answered already.
    obtain ⟨hend, hbalance⟩ := h
    cases hpending : c.pending with
    | cons b rest =>
      simp only [Channel.read, hstopped, hpending, Reading.byte?, Bool.false_eq_true, if_false]
      refine ⟨hend, .inl ?_⟩
      obtain hahead | ⟨hnil, -⟩ := hbalance
      · simpa [hpending] using hahead
      · rw [hpending] at hnil
        cases hnil
    | nil =>
      cases hopen : c.isOpen with
      | true =>
        simp only [Channel.read, hstopped, hpending, hopen, Reading.byte?, Bool.false_eq_true,
          if_false, if_true, Option.toList_none, List.append_nil]
        exact ⟨hend, hbalance⟩
      | false =>
        simp only [Channel.read, hstopped, hpending, hopen, Bool.false_eq_true, if_false]
        refine ⟨hend, ?_⟩
        rw [hend]
        cases hx : endByte with
        | none => simpa [Reading.byte?, hx] using hbalance
        | some x =>
          -- One more end byte behind all that was sent.
          right
          obtain hahead | ⟨-, -, y, k, hy, hgot⟩ := hbalance
          · rw [hpending, List.append_nil] at hahead
            exact ⟨hpending, hopen, x, 1, rfl, by simp [Reading.byte?, hahead]⟩
          · obtain rfl : x = y := Option.some.inj (hx.symm.trans hy)
            exact ⟨hpending, hopen, x, k + 1, rfl, by
              simp [Reading.byte?, hgot, List.replicate_succ']⟩

/-- What happens from outside is entered into the account. -/
theorem Delivers.undergo (h : Delivers endByte sent got c) (happening : Happening) :
    Delivers endByte (sent ++ c.accepts (.outside happening)) got (c.undergo happening) := by
  obtain ⟨hend, hbalance⟩ := h
  cases happening with
  | send bytes =>
    simp only [Channel.undergo, accepts, send]
    cases hopen : c.isOpen with
    | true =>
      -- Once there is an end byte among the answers the channel is closed, and it takes nothing any
      -- more.
      rw [if_pos rfl, List.take_length]
      refine ⟨hend, .inl ?_⟩
      obtain hahead | ⟨-, hclosed, -⟩ := hbalance
      · rw [hahead, List.append_assoc]
      · rw [hopen] at hclosed
        cases hclosed
    | false =>
      rw [if_neg Bool.false_ne_true, List.take_zero, List.append_nil]
      exact ⟨hend, hbalance⟩
  | close =>
    rw [accepts, List.append_nil]
    exact ⟨hend, hbalance.imp_right fun ⟨hpending, _, hend⟩ => ⟨hpending, rfl, hend⟩⟩
  | stop =>
    rw [accepts, List.append_nil]
    exact ⟨hend, hbalance⟩
  | flush fails =>
    rw [accepts, List.append_nil]
    exact ⟨hend, hbalance⟩

/-- **Every act is entered into the account.** -/
theorem Delivers.act (h : Delivers endByte sent got c) (a : Act) :
    Delivers endByte (sent ++ c.accepts a) (got ++ c.answers a) (c.act a) := by
  cases a with
  | outside happening =>
    rw [answers, List.append_nil]
    exact h.undergo happening
  | read =>
    rw [accepts, List.append_nil]
    exact h.read

/-- The account of a whole history. -/
theorem Delivers.behind (h : Delivers endByte sent got c) (acts : List Act) :
    Delivers endByte (sent ++ c.accepted acts) (got ++ c.answered acts) (c.behind acts) := by
  induction acts generalizing c sent got with
  | nil => simpa [accepted, answered, Channel.behind] using h
  | cons a acts ih =>
    rw [accepted, answered, ← List.append_assoc, ← List.append_assoc]
    exact ih (h.act a)

/-! ### What a request is answered -/

theorem Delivers.of_read_eq_byte (h : Delivers endByte sent got c) {b : UInt8}
    (hread : c.read.1 = .byte b) : sent[got.length]? = some b ∨
      c.isOpen = false ∧ sent.length ≤ got.length ∧ endByte = some b := by
  rw [h.read_eq] at hread
  split at hread
  · cases hread
  · split at hread
    · next hnext => exact .inl (hnext.trans (congrArg some (Reading.byte.inj hread)))
    · next hnext =>
      split at hread
      · cases hread
      · next hclosed =>
        refine .inr ⟨by simpa using hclosed, List.getElem?_eq_none_iff.mp hnext, ?_⟩
        cases endByte with
        | none => cases hread
        | some x => exact congrArg some (Reading.byte.inj hread)

theorem Delivers.read_eq_waiting_iff (h : Delivers endByte sent got c) :
    c.read.1 = .waiting ↔ c.stopped = false ∧ sent.length ≤ got.length ∧ c.isOpen = true := by
  rw [h.read_eq, ← List.getElem?_eq_none_iff]
  cases c.stopped with
  | true => simp
  | false => cases sent[got.length]? <;> cases c.isOpen <;> cases endByte <;> simp

theorem Delivers.of_read_eq_cancel (h : Delivers endByte sent got c) (hgoes : c.stopped = false)
    (hread : c.read.1 = .cancel) :
    c.isOpen = false ∧ sent.length ≤ got.length ∧ endByte = none := by
  rw [h.read_eq, hgoes, if_neg Bool.false_ne_true] at hread
  rw [← List.getElem?_eq_none_iff]
  cases hnext : sent[got.length]? with
  | some b => simp [hnext] at hread
  | none => cases hopen : c.isOpen <;> cases endByte <;> simp_all

/-- A request that waits leaves the host as it is. -/
theorem read_of_waiting (h : c.read.1 = .waiting) : c.read.2 = c := by
  unfold read at h ⊢
  grind

theorem read_of_stopped (h : c.stopped = true) : c.read = (.cancel, c) := by
  simp [read, h]

/-- **No byte is lost, doubled or moved**, whatever the history of a fresh channel.  The bytes
answered are the first ones that were sent; or all of them and end bytes behind them, once the
channel is closed.  A request is answered the first byte that is left, and if all bytes are answered
it waits for as long as the channel is open and not stopped, and leaves the host as it is.  A stopped
host cancels every request and gives nothing away; any other one cancels only at the end of a closed
channel without an end byte. -/
theorem behind_delivers (endByte : Option UInt8) (out dumpOut : Writer) (acts : List Act) :
    let start : Channel := { endByte, out, dumpOut }
    let c := start.behind acts
    let sent := start.accepted acts
    let got := start.answered acts
    (got <+: sent ∨
      .outside .close ∈ acts ∧ ∃ x k, endByte = some x ∧ got = sent ++ List.replicate k x) ∧
    (∀ b, c.read.1 = .byte b → sent[got.length]? = some b ∨
      .outside .close ∈ acts ∧ sent.length ≤ got.length ∧ endByte = some b) ∧
    (c.read.1 = .waiting ↔
      .outside .stop ∉ acts ∧ sent.length ≤ got.length ∧ .outside .close ∉ acts) ∧
    (c.read.1 = .waiting → c.read.2 = c) ∧
    (.outside .stop ∈ acts → c.read = (.cancel, c)) ∧
    (.outside .stop ∉ acts → c.read.1 = .cancel →
      .outside .close ∈ acts ∧ sent.length ≤ got.length ∧ endByte = none) := by
  intro start c sent got
  have hdelivers : Delivers endByte sent got c := by
    have hstart : Delivers endByte [] [] start := ⟨rfl, .inl rfl⟩
    simpa using hstart.behind acts
  -- The flags of the host tell which of the acts were in the history.
  have hopen : c.isOpen = true ↔ .outside .close ∉ acts := by simp [c, isOpen_behind, start]
  have hclosed : c.isOpen = false ↔ .outside .close ∈ acts := by simp [← Bool.not_eq_true, hopen]
  have hstopped : c.stopped = true ↔ .outside .stop ∈ acts := by simp [c, stopped_behind, start]
  have hgoes : c.stopped = false ↔ .outside .stop ∉ acts := by simp [← Bool.not_eq_true, hstopped]
  rw [← hgoes, ← hopen, ← hclosed, ← hstopped]
  refine ⟨?_, fun b => hdelivers.of_read_eq_byte, hdelivers.read_eq_waiting_iff, read_of_waiting,
    read_of_stopped, hdelivers.of_read_eq_cancel⟩
  exact hdelivers.balance.imp (fun hahead => ⟨c.pending, hahead.symm⟩) And.right

/-- Two bytes are sent and one is read, the channel is closed and takes no more, and of three more
requests the first one is answered what was left.  Then the stop flag is set. -/
theorem behind_delivers_closed :
    let start : Channel := { endByte := some 0 }
    let acts : List Act :=
      [.outside (.send [7, 8]), .read, .outside .close, .outside (.send [9]), .read, .read, .read,
        .outside .stop]
    .outside .stop ∈ acts ∧ start.accepted acts = [7, 8] ∧ start.answered acts = [7, 8, 0, 0] ∧
      (start.behind acts).read = (.cancel, start.behind acts) := by
  intro start acts
  have hmem : .outside .stop ∈ acts := by decide
  exact ⟨hmem, by decide, by decide, (behind_delivers (some 0) {} {} acts).2.2.2.2.1 hmem⟩

end TapeLang.Channel
