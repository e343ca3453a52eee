import TapeLang.Proofs.Peephole.Behaviour
import TapeLang.Proofs.Printing

/-!
# When the reduction is faithful

Dumps left aside, a text and the reduced text should end alike: with the same outcome and the same
calls, or not at all (`Faithful`).  A text that never slips is reduced faithfully.  That it does not
slip is asked for with reason: behind a text that ends on the first cell one `<>` is enough to make
the two runs hand over different values, unless cells have only one value.  `Block.probe` are the
operations that show it.

Main statements: `faithful_of_never_slips`, which says both, and `not_faithful_at_edge`, a text of
four symbols that is not reduced faithfully.
-/

namespace TapeLang

open Progress

variable {σ τ α β α' β' : Type}

namespace Progress

/-- The run ends with this outcome and, apart from dumps, with these calls. -/
def EndsWith (run : Nat → Progress (Traced σ) α β) (o : Outcome) (calls : List Event) : Prop :=
  ∃ n b t, run n = ended o b t ∧ t.events.toList.filter (!·.isDump) = calls

/-- The runs end alike: with the same outcome and, apart from dumps, with the same calls, or
both do not end. -/
def EndAlike (run : Nat → Progress (Traced σ) α β) (run' : Nat → Progress (Traced τ) α' β') :
    Prop :=
  ∀ o calls, EndsWith run o calls ↔ EndsWith run' o calls

/-- Runs that agree up to zeros in dumps end alike. -/
theorem Agree.endAlike {M : β → β' → Prop} {run : Nat → Progress (Traced σ) α β}
    {run' : Nat → Progress (Traced τ) α' β'} (ha : Agree Event.Similar M run run') :
    EndAlike run run' := by
  intro o calls
  constructor
  · rintro ⟨n, b, t, hn, hcalls⟩
    obtain ⟨m, b', t', hm, -, hevents⟩ := ha.ends hn
    exact ⟨m, b', t', hm, by rw [← Event.filter_eq_of_similar hevents, hcalls]⟩
  · rintro ⟨m, b', t', hm, hcalls⟩
    obtain ⟨n, b, t, hn, -, hevents⟩ := ha.ends' hm
    exact ⟨n, b, t, hn, by rw [Event.filter_eq_of_similar hevents, hcalls]⟩

end Progress

namespace Block

open Result

/-- Operations one after the other. -/
def ofOps (ops : List Op) : Block := ops.foldr op done

/-- A text spells a program, and the text behind it what stands behind the program. -/
theorem Spells.append {b c : Block} {cs ds : List Char} (hb : Spells b cs) (hc : Spells c ds) :
    Spells (b.append c) (cs ++ ds) := by
  induction hb with
  | done => exact hc
  | comment hop hopen hclose _ ih => exact .comment hop hopen hclose ih
  | op hop _ ih => exact .op hop ih
  | loop hbody _ _ ih =>
    rw [List.cons_append, List.append_assoc, List.cons_append]
    exact .loop hbody ih

theorem spells_ofOps (ops : List Op) : Spells (ofOps ops) (ops.map Op.symbol) := by
  induction ops with
  | nil => exact .done
  | cons o ops ih => exact .op (Op.ofSymbol?_symbol o) ih

/-- Operations behind a text stand behind its program. -/
theorem parse_append_symbols {text more : String} {program : Block} {ops : List Op}
    (hp : parse text = .ok program) (hmore : more.toList = ops.map Op.symbol) :
    parse (text ++ more) = .ok (program.append (ofOps ops)) := by
  rw [parse_eq_ok_iff_spells] at hp ⊢
  rw [String.toList_append, hmore]
  exact hp.append (spells_ofOps ops)

/-! ### Slips are seen -/

/-- Operations that slip on the first cell and look at what comes of it: `.<>.+<.`. -/
def probe : List Op := [.output, .left, .right, .output, .increment, .left, .output]

/-- What is left of them in a reduced text: `..+<.`. -/
def reducedProbe : List Op := [.output, .output, .increment, .left, .output]

/-- Behind any text the probe is reduced alone. -/
theorem reduce_append_probe {text more : String} (hmore : more.toList = probe.map Op.symbol) :
    Peephole.reduce (text ++ more) =
      Peephole.reduce text ++ String.ofList (reducedProbe.map Op.symbol) := by
  have hfold (kept : List Char) : (probe.map Op.symbol).foldl Peephole.push kept =
      (reducedProbe.map Op.symbol).reverse ++ kept := by
    -- A `.` undoes nothing, so it ends what the text before may drop, and starts what the probe
    -- may.
    have hpush : Peephole.push kept '.' = '.' :: kept := by
      cases kept <;> simp [Peephole.push, Peephole.undoes]
    rw [probe, List.map_cons, List.foldl_cons, Op.symbol, hpush]
    rfl
  simp only [Peephole.reduce, String.toList_append, hmore, List.foldl_append, hfold,
    List.reverse_append, List.reverse_reverse, String.ofList_append]

variable {σ : Type} {range : CellRange} {host : Host σ} {h h₀ : σ} {program reduced : Block}

/-- On the first cell the probe hands over the first cell, the second one and the first one. -/
theorem exists_execute_probe (range : CellRange) (host : Host σ) (limit : Nat) {t : Tape}
    (hedge : t.pointer = 0) (h : Traced σ) :
    ∃ t₁ h₁, (ofOps probe).execute range host.traced limit t h = .finished t₁ h₁ ∧
      h₁.events.toList = h.events.toList ++
        [.output t.here, .output t.moveRight.here, .output t.here] := by
  obtain ⟨before, c, after⟩ := t
  obtain rfl : before = [] := by simpa [Tape.pointer] using hedge
  refine ⟨_, _, rfl, ?_⟩
  cases after <;> simp [Host.traced, Tape.moveLeft, Tape.moveRight, Tape.write]

/-- On the first cell the reduced probe hands over the first cell, twice as it is and then raised.
-/
theorem exists_execute_reducedProbe (range : CellRange) (host : Host σ) (limit : Nat) {t : Tape}
    (hedge : t.pointer = 0) (h : Traced σ) :
    ∃ t₁ h₁, (ofOps reducedProbe).execute range host.traced limit t h = .finished t₁ h₁ ∧
      h₁.events.toList = h.events.toList ++
        [.output t.here, .output t.here, .output (range.wrap (t.here + 1))] := by
  obtain ⟨before, c, after⟩ := t
  obtain rfl : before = [] := by simpa [Tape.pointer] using hedge
  exact ⟨_, _, rfl, by simp [Host.traced, Tape.moveLeft, Tape.write]⟩

/-- A program whose block comes to its end is polled once more and ends. -/
theorem exists_endsWith_of_execute {b : Block} {limit : Nat} {t₁ : Tape} {h₁ : Traced σ}
    (heq : b.execute range host.traced limit .fresh { host := h } = .finished t₁ h₁) :
    ∃ o cancel, EndsWith (Machine.recorded range host b h) o
      (h₁.events.toList.filter (!·.isDump) ++ [.poll cancel]) := by
  have hp : Performs (Machine.advance range host.traced) Eq limit (.start b) _
      (b.executeProgram range host.traced limit { host := h }) :=
    Machine.performs_executeProgram limit b _
  rw [executeProgram, heq, Result.andThen_finished, Host.polled, Host.traced_poll] at hp
  rw [Machine.recorded_eq_iterate]
  -- The host's answer to the last poll tells how the program ends.
  cases hcancel : (host.poll h₁.host).1 with
  | true =>
    rw [hcancel] at hp
    obtain ⟨n, b, hn, -⟩ := hp
    exact ⟨.cancelled, true, n, b, _, hn, by simp [Event.isDump]⟩
  | false =>
    rw [hcancel] at hp
    obtain ⟨n, b, hn, -⟩ := hp
    exact ⟨.completed, false, n, b, _, hn, by simp [Event.isDump]⟩

theorem endsWith_unique {b : Block} {o o' : Outcome} {calls calls' : List Event}
    (hends : EndsWith (Machine.recorded range host b h) o calls)
    (hends' : EndsWith (Machine.recorded range host b h) o' calls') : calls = calls' := by
  rw [Machine.recorded_eq_iterate] at hends hends'
  obtain ⟨n, tape, t, hn, rfl⟩ := hends
  obtain ⟨n', tape', t', hn', rfl⟩ := hends'
  rw [(ended_unique hn hn').2.2]

/-- Where a completed run ends, the block came to its end. -/
theorem exists_execute_of_completed {n : Nat} {tape : Tape} {t : Traced σ}
    (hn : Machine.recorded range host program h n = .ended .completed tape t) :
    ∃ h₁, program.execute range host.traced n .fresh { host := h } = .finished tape h₁ := by
  have hp : Performs (Machine.advance range host.traced) Eq n (.start program) _
      (program.executeProgram range host.traced n { host := h }) :=
    Machine.performs_executeProgram n program _
  rw [Machine.recorded_eq_iterate] at hn
  obtain ⟨tape', hr, rfl⟩ := hp.exists_result hn
  rw [executeProgram] at hr
  cases hexecute : program.execute range host.traced n .fresh { host := h } with
  | finished t₁ h₁ =>
    rw [hexecute, Result.andThen_finished, Host.polled] at hr
    split at hr
    · cases hr
    · cases hr
      exact ⟨h₁, rfl⟩
  | cancelled t₁ h₁ =>
    rw [hexecute] at hr
    cases hr
  | unfinished t₁ h₁ =>
    rw [hexecute] at hr
    cases hr

/-- **Slips are seen**: behind a program that ends on the first cell, the probe and the reduced
probe hand over different values, unless cells have only one value. -/
theorem not_endAlike_of_probe (answers : host.AnswersBy (!·.isDump) h)
    (hreduces : Reduces Op.Undoes program reduced)
    (hnever : Always (¬ ·.Slips) (Machine.recorded range host program h))
    (hbound : range.bound? ≠ some 1) {n : Nat} {tape : Tape} {t : Traced σ}
    (hn : Machine.recorded range host program h n = .ended .completed tape t)
    (hedge : tape.pointer = 0) :
    ¬ EndAlike (Machine.recorded range host (program.append (ofOps probe)) h)
      (Machine.recorded range host (reduced.append (ofOps reducedProbe)) h) := by
  intro halike
  -- Both programs come to the probe on the first cell, with the same value in it.
  obtain ⟨h₁, hexecute⟩ := exists_execute_of_completed hn
  have hrel := execute_related_of_never_slips answers hreduces hnever n
  rw [hexecute] at hrel
  -- The reduced program does not end otherwise, for both executions are related.
  cases hexecute' : reduced.execute range host.traced n .fresh { host := h } with
  | cancelled => rw [hexecute'] at hrel; cases hrel
  | unfinished => rw [hexecute'] at hrel; cases hrel
  | finished tape' h₁' =>
    rw [hexecute'] at hrel
    cases hrel with
    | finished hR =>
      have hedge' : tape'.pointer = 0 := by rw [← hR.tape.1, hedge]
      obtain ⟨t₂, h₂, hprobe, hevents⟩ := exists_execute_probe range host n hedge h₁
      obtain ⟨t₂', h₂', hprobe', hevents'⟩ := exists_execute_reducedProbe range host n hedge' h₁'
      rw [← Result.andThen_finished tape h₁ ((ofOps probe).execute range host.traced n),
        ← hexecute, ← execute_append] at hprobe
      rw [← Result.andThen_finished tape' h₁' ((ofOps reducedProbe).execute range host.traced n),
        ← hexecute', ← execute_append] at hprobe'
      obtain ⟨o, cancel, hends⟩ := exists_endsWith_of_execute hprobe
      obtain ⟨o', cancel', hends'⟩ := exists_endsWith_of_execute hprobe'
      -- If they ended alike, then the value would be the same as the raised one.
      have hcalls := endsWith_unique ((halike _ _).mp hends) hends'
      rw [hevents, hevents', List.filter_append, List.filter_append,
        Event.filter_eq_of_similar hR.events, List.append_assoc, List.append_assoc] at hcalls
      have hvalues : tape.here = tape'.here ∧ tape.moveRight.here = tape'.here ∧
          tape.here = range.wrap (tape'.here + 1) ∧ cancel = cancel' := by
        simpa [Event.isDump] using List.append_cancel_left hcalls
      obtain ⟨hhere, -, hraised, -⟩ := hvalues
      exact CellRange.wrap_add_one_ne hR.right.inRange.here hbound (hraised.symm.trans hhere)

end Block

namespace Peephole

variable {σ : Type}

/-- The reduction of a text is faithful: the text and the reduced text are programs that end
alike. -/
def Faithful (range : CellRange) (host : Host σ) (h : σ) (text : String) : Prop :=
  ∃ program reduced, Block.parse text = .ok program ∧ Block.parse (reduce text) = .ok reduced ∧
    EndAlike (Machine.recorded range host program h) (Machine.recorded range host reduced h)

/-- **A text that never slips is reduced faithfully.**  Where it ends on the first cell, a slip
behind it is seen: with `.<>.+<.` added it is not reduced faithfully any more, unless cells have
only one value. -/
theorem faithful_of_never_slips (range : CellRange) (host : Host σ) {h : σ}
    (answers : host.AnswersBy (!·.isDump) h) {text : String} (balanced : Block.Balanced text.toList)
    (hnever : ∀ program, Block.parse text = .ok program →
      Always (¬ ·.Slips) (Machine.recorded range host program h)) :
    Faithful range host h text ∧
      (range.bound? ≠ some 1 → ∀ {program n tape t}, Block.parse text = .ok program →
        Machine.recorded range host program h n = .ended .completed tape t → tape.pointer = 0 →
          ¬ Faithful range host h (text ++ ".<>.+<.")) := by
  obtain ⟨program, hp⟩ := Block.exists_parse_of_balanced balanced
  obtain ⟨reduced, hp', hreduces⟩ := Block.exists_parse_reduce hp
  refine ⟨⟨program, reduced, hp, hp', ?_⟩, ?_⟩
  · exact (Block.agree_of_reduces answers hreduces (hnever program hp)).endAlike
  · rintro hbound program' n tape t hprogram hn hedge ⟨longer, shorter, hlonger, hshorter, halike⟩
    obtain rfl : program' = program := by simpa [hprogram] using hp
    -- The probe is read behind both programs, and its reduced form is what the longer text has of
    -- it.
    have hprobe : ".<>.+<.".toList = Block.probe.map Op.symbol := by decide
    rw [Block.parse_append_symbols hp hprobe] at hlonger
    rw [Block.reduce_append_probe hprobe,
      Block.parse_append_symbols hp' (String.toList_ofList)] at hshorter
    cases hlonger
    cases hshorter
    exact Block.not_endAlike_of_probe answers hreduces (hnever _ hp) hbound hn hedge halike

/-- The text `<,><.` executes a `<` on the first cell, but nothing undoes it.  It ends there, too. -/
theorem faithful_of_never_slips_at_edge :
    Bare.host.AnswersBy (!·.isDump) { input := [3] } ∧ Block.Balanced "<,><.".toList ∧
      (∀ program, Block.parse "<,><." = .ok program →
        Always (¬ ·.Slips) (Machine.recorded .bytes Bare.host program { input := [3] })) ∧
      Faithful .bytes Bare.host { input := [3] } "<,><." ∧
      ¬ Faithful .bytes Bare.host { input := [3] } ("<,><." ++ ".<>.+<.") := by
  have answers := Bare.answersBy_host { input := [3] }
  have balanced : Block.Balanced "<,><.".toList := by decide
  have hnever (program : Block) (hp : Block.parse "<,><." = .ok program) :
      Always (¬ ·.Slips) (Machine.recorded .bytes Bare.host program { input := [3] }) := by
    obtain rfl : Block.ofOps [.left, .input, .right, .left, .output] = program :=
      Except.ok.inj hp
    rw [Machine.recorded_eq_iterate]
    exact always_of_ended (m := 7) rfl (by decide)
  obtain ⟨hfaithful, hslip⟩ := faithful_of_never_slips .bytes Bare.host answers balanced hnever
  have hparse : Block.parse "<,><." = .ok (.ofOps [.left, .input, .right, .left, .output]) := rfl
  exact ⟨answers, balanced, hnever, hfaithful, hslip (n := 7) (by decide) hparse rfl rfl⟩

/-- **Without the condition the reduction is not faithful**: the text `+<>.` slips and hands over
zero, and the reduced text `+.` hands over one. -/
theorem not_faithful_at_edge : ¬ Faithful .bytes Bare.host {} "+<>." := by
  rintro ⟨program, reduced, hp, hp', halike⟩
  obtain rfl : Block.ofOps [.increment, .left, .right, .output] = program := Except.ok.inj hp
  obtain rfl : Block.ofOps [.increment, .output] = reduced := Except.ok.inj hp'
  have hends : EndsWith (Machine.recorded .bytes Bare.host
      (Block.ofOps [.increment, .left, .right, .output]) {}) .completed
      [.output 0, .poll false] := ⟨6, _, _, rfl, by decide⟩
  have hends' : EndsWith (Machine.recorded .bytes Bare.host
      (Block.ofOps [.increment, .output]) {}) .completed
      [.output 1, .poll false] := ⟨4, _, _, rfl, by decide⟩
  have hcalls := Block.endsWith_unique ((halike _ _).mp hends) hends'
  revert hcalls
  decide

end Peephole
end TapeLang
