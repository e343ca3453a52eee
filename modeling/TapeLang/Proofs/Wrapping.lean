import Mathlib.Data.Int.ModEq
import TapeLang.Host.Basic
import TapeLang.Proofs.Nodes
import TapeLang.Proofs.Reachable

/-!
# Values that wrap

A machine writes a value on three occasions: when it raises the selected cell, when it lowers it, and
when it reads a byte.  Each of them aims at a number (`Op.Aims`), and what is written is this number
reduced into the range of the machine (`Progress.Writes`).

A machine with a bound writes, modulo the bound, what it aims at: its cells are so small that
nothing overflows before it is reduced (`modEq_of_writes`).  A machine without a bound whose values
happen to stay below some bound does not notice whether it has that bound: each of its steps is the
step of the other machine (`advance_below_eq`).

Main statement: `recorded_eq_unbounded_and_modEq`, which says both.
-/

namespace TapeLang

variable {σ : Type}

namespace CellRange

variable {n : Nat} {pos : 0 < n} {le : n ≤ 4294967295} {v : Cell}

/-- The values of a bounded range are the numbers below the bound. -/
theorem contains_below_iff : (below n pos le).Contains v ↔ 0 ≤ v.toInt ∧ v.toInt < n := by
  refine ⟨contains_below, fun ⟨hlo, hhi⟩ => Int64.toInt_inj.mp ?_⟩
  rw [toInt_wrap_below, Int.emod_eq_of_lt hlo hhi]

end CellRange

/-! ### What is written -/

/-- What an operation aims at with the selected cell at `old`, if it makes the given calls: one
more, one less, or the byte that is read. -/
inductive Op.Aims (old : Cell) : Op → List Event → Int → Prop
  | increment : Aims old .increment [] (old.toInt + 1)
  | decrement : Aims old .decrement [] (old.toInt - 1)
  | input (b : UInt8) : Aims old .input [.input (some b)] b.toNat

/-- A step of the run writes the value, and `aim` is what it aims at. -/
def Progress.Writes (run : Nat → Progress (Traced σ)) (aim : Int) (value : Cell) : Prop :=
  ∃ (m : Nat) (s s' : State) (t t' : Traced σ) (o : Op) (calls : List Event),
    run m = .running s t ∧ run (m + 1) = .running s' t' ∧ s.next? = some (.op o) ∧
      t'.events.toList = t.events.toList ++ calls ∧ o.Aims s.tape.here calls aim ∧
      s'.tape.here = value

namespace Machine

open Progress

variable {range : CellRange} {host : Host σ} {program : Block} {h : σ}

section

variable {s s' : State} {call : Option Event} {o : Op}

/-- A step that goes on with an operation does it. -/
theorem does_of_goes (hgoes : Goes range s call s') (hnext : s.next? = some (.op o)) :
    o.Does range s.tape call s'.tape := by
  cases hgoes with
  | op hdoes =>
    obtain rfl : _ = o := by simpa [State.next?, Block.instructions] using hnext
    exact hdoes
  | skip _ => simp [State.next?, Block.instructions] at hnext
  | enter _ => simp [State.next?, Block.instructions] at hnext
  | again _ => simp [State.next?, Block.instructions] at hnext
  | leave _ => simp [State.next?, Block.instructions] at hnext

end

section

variable {n : Nat} {pos : 0 < n} {le : n ≤ 4294967295}

/-! ### With a bound -/

/-- An operation writes what it aims at, modulo the bound. -/
theorem modEq_of_does {t t' : Tape} {call : Option Event} {o : Op} {aim : Int}
    (hdoes : o.Does (.below n pos le) t call t') (haims : o.Aims t.here call.toList aim)
    (hhere : (CellRange.below n pos le).Contains t.here) : t'.here.toInt ≡ aim [ZMOD n] := by
  obtain ⟨hlo, hhi⟩ := CellRange.contains_below hhere
  have hwrap (v : Cell) : ((CellRange.below n pos le).wrap v).toInt ≡ v.toInt [ZMOD n] := by
    rw [CellRange.toInt_wrap_below]
    exact Int.mod_modEq _ _
  -- Only these three write, and each stores what it aims at after reducing it.
  cases hdoes with
  | increment =>
    cases haims
    rw [← CellRange.toInt_add_one hlo (by omega)]
    exact hwrap _
  | decrement =>
    cases haims
    rw [← CellRange.toInt_sub_one hlo (by omega)]
    exact hwrap _
  | input b =>
    cases haims
    have hbyte : (Int64.ofNat b.toNat).toInt = b.toNat :=
      Int64.toInt_ofNat_of_lt (Nat.lt_trans b.toNat_lt (by decide))
    rw [← hbyte]
    exact hwrap _
  | left => cases haims
  | right => cases haims
  | output => cases haims
  | dump => cases haims

/-- A run with a bound writes numbers below it that are, modulo the bound, what was aimed at. -/
theorem modEq_of_writes {aim : Int} {value : Cell}
    (hwrites : Writes (recorded (.below n pos le) host program h) aim value) :
    value.toInt ≡ aim [ZMOD n] ∧ 0 ≤ value.toInt ∧ value.toInt < n := by
  obtain ⟨m, s, s', t, t', o, calls, hm, hm', hnext, hcalls, haims, rfl⟩ := hwrites
  obtain ⟨call, hgoes, hcall⟩ := goes_recorded hm hm'
  obtain rfl : call.toList = calls := List.append_cancel_left (hcall.symm.trans hcalls)
  have hrange := (inRange_recorded (.below n pos le) host program h m).1
  rw [hm] at hrange
  have hrange' := (inRange_recorded (.below n pos le) host program h (m + 1)).1
  rw [hm'] at hrange'
  exact ⟨modEq_of_does (does_of_goes hgoes hnext) haims hrange.here,
    CellRange.contains_below hrange'.here⟩

/-! ### Without one -/

/-- A value of the range is stored as it is. -/
theorem store_eq_of_contains {v : Cell} (hv : range.Contains v) (s : State) :
    s.store range v = s.store .all v := by
  rw [State.store, State.store, hv, CellRange.wrap_all]

/-- A step that writes values below the bound only is the same with the bound. -/
theorem advance_below_eq {m : Nat} {s : State} {t : Traced σ}
    (hm : recorded .all host program h m = .running s t)
    (hbelow : ∀ aim value, Writes (recorded .all host program h) aim value →
      0 ≤ value.toInt ∧ value.toInt < n) :
    advance (.below n pos le) host.traced s t = advance .all host.traced s t := by
  have hm' : recorded .all host program h (m + 1) = advance .all host.traced s t := by
    rw [recorded_succ, hm, andThen]
  obtain ⟨tape, frames⟩ := s
  -- The bound is used only where something is stored, so the step is opened up to there.
  cases frames with
  | nil => rfl
  | cons frame outer =>
    obtain ⟨block, rest⟩ := frame
    cases rest with
    | done => rfl
    | loop body next => rfl
    | op o next =>
      -- What the step without a bound writes is below the bound, and so it is stored as it is.
      have hstore {calls : List Event} {aim : Int} {v : Cell} {t' : Traced σ}
          (hnext : recorded .all host program h (m + 1) =
            .running (State.store .all ⟨tape, ⟨block, next⟩ :: outer⟩ v) t')
          (hcalls : t'.events.toList = t.events.toList ++ calls)
          (haims : o.Aims tape.here calls aim) :
          State.store (.below n pos le) ⟨tape, ⟨block, next⟩ :: outer⟩ v =
            State.store .all ⟨tape, ⟨block, next⟩ :: outer⟩ v := by
        refine store_eq_of_contains (CellRange.contains_below_iff.mpr (hbelow aim v ?_)) _
        exact ⟨m, _, _, t, t', o, calls, hm, hnext, rfl, hcalls, haims, rfl⟩
      cases o with
      | increment =>
        simp only [advance, State.step, State.perform]
        rw [hstore hm' (by simp) .increment]
      | decrement =>
        simp only [advance, State.step, State.perform]
        rw [hstore hm' (by simp) .decrement]
      | input =>
        simp only [advance, State.step, State.perform, Host.traced_input] at hm' ⊢
        cases hanswer : (host.input t.host).1 with
        | none => rfl
        | some b =>
          simp only [hanswer] at hm' ⊢
          rw [hstore hm' (by simp) (.input b)]
      | left => rfl
      | right => rfl
      | output => rfl
      | dump => rfl

/-- **A run that writes values below the bound only is the same with the bound**, step by step. -/
theorem recorded_below_eq (hbelow : ∀ aim value, Writes (recorded .all host program h) aim value →
      0 ≤ value.toInt ∧ value.toInt < n) (m : Nat) :
    recorded (.below n pos le) host program h m = recorded .all host program h m := by
  induction m with
  | zero => rfl
  | succ m ih =>
    rw [recorded_succ, recorded_succ, ih]
    cases hm : recorded .all host program h m with
    | running s t => exact advance_below_eq hm hbelow
    | ended o tape t => rfl

end

/-- **Wrapping is not seen as long as values stay in the range, and is exact where it is seen.**  If
all that the run without a bound writes lies below some bound, then the run with this bound is the
same at all times: the same states and calls, and at the end the same outcome and tape.  In every run
with a bound, what is written lies below the bound and is, modulo the bound, one more or less than
the selected cell was, or the byte that was read. -/
theorem recorded_eq_unbounded_and_modEq (host : Host σ) (program : Block) (h : σ) (n : Nat)
    (pos : 0 < n) (le : n ≤ 4294967295) :
    ((∀ aim value, Writes (recorded .all host program h) aim value →
        0 ≤ value.toInt ∧ value.toInt < n) →
      ∀ m, recorded (.below n pos le) host program h m = recorded .all host program h m) ∧
    ∀ aim value, Writes (recorded (.below n pos le) host program h) aim value →
      value.toInt ≡ aim [ZMOD n] ∧ 0 ≤ value.toInt ∧ value.toInt < n :=
  ⟨recorded_below_eq, fun _ _ => modEq_of_writes⟩

/-- The program `++[-]`. -/
def twoDown : Block := .op .increment (.op .increment (.loop (.op .decrement .done) .done))

/-- The program `-`. -/
def oneDown : Block := .op .decrement .done

/-- With three values, one program does not notice it, and another one goes round. -/
theorem recorded_eq_unbounded_and_modEq_three :
    (∀ m, recorded (.below 3 (by decide) (by decide)) Bare.host twoDown {} m =
      recorded .all Bare.host twoDown {} m) ∧
    ∃ value, Writes (recorded (.below 3 (by decide) (by decide)) Bare.host oneDown {}) (-1) value ∧
      value.toInt ≡ -1 [ZMOD (3 : Nat)] ∧ 0 ≤ value.toInt ∧ value.toInt < (3 : Nat) := by
  constructor
  · refine (recorded_eq_unbounded_and_modEq Bare.host twoDown {} 3 (by decide) (by decide)).1 ?_
    -- The run is over after nine steps, and all states before have a small value.
    obtain ⟨o, tape, t, hended⟩ :
        ∃ o tape t, recorded .all Bare.host twoDown {} 9 = .ended o tape t := ⟨_, _, _, rfl⟩
    have hsmall : Always (fun s => 0 ≤ s.tape.here.toInt ∧ s.tape.here.toInt < 3)
        (recorded .all Bare.host twoDown {}) := by
      rw [recorded_eq_iterate] at hended ⊢
      exact always_of_ended hended (by decide)
    rintro aim value ⟨m, s, s', t, t', o, calls, -, hm', -, -, -, rfl⟩
    have hmeets := hsmall (m + 1)
    rw [hm'] at hmeets
    exact hmeets
  · have hwrites : Writes (recorded (.below 3 (by decide) (by decide)) Bare.host oneDown {}) (-1)
        2 := ⟨0, _, _, _, _, .decrement, [], rfl, rfl, rfl, rfl, .decrement, rfl⟩
    exact ⟨2, hwrites, (recorded_eq_unbounded_and_modEq Bare.host oneDown {} 3 (by decide)
      (by decide)).2 (-1) 2 hwrites⟩

end Machine
end TapeLang
