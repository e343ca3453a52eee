import TapeLang.Proofs.Places

/-!
# The machine by addresses

A machine may also keep a row of cells with the number of the selected one, and for each block that
is being executed the number of its next instruction.  Such a machine reaches for cells and
instructions by their addresses, and an address may lie outside of the row or the block: then
`Addressed.advance?` has no answer.

It always has one where the frames fit their blocks, and does what the machine does
(`advance?_addressed`).
-/

namespace TapeLang

variable {σ : Type}

/-- The same run, with another view of its states and of the memory that it leaves behind. -/
def Progress.map {α β α' β' : Type} (f : α → α') (g : β → β') :
    Progress σ α β → Progress σ α' β'
  | running a h => running (f a) h
  | ended o b h => ended o (g b) h

/-- A state by addresses. -/
structure Addressed where
  cells : List Cell
  /-- The number of the selected cell. -/
  pointer : Nat
  /-- The blocks being executed, innermost first, each with the place of its next instruction. -/
  frames : List (Block × Nat)

namespace Addressed

/-! ### Cells by their numbers -/

/-- The selected cell, if there is a cell of that number. -/
def get? (a : Addressed) : Option Cell := a.cells[a.pointer]?

/-- The state with the selected cell set, if there is a cell of that number. -/
def set? (a : Addressed) (v : Cell) : Option Addressed :=
  if a.pointer < a.cells.length then some { a with cells := a.cells.set a.pointer v } else none

def moveLeft (a : Addressed) : Addressed := { a with pointer := a.pointer - 1 }

/-- A cell is added only if its number comes right behind the last one. -/
def moveRight (a : Addressed) : Addressed :=
  { a with
    cells := if a.pointer + 1 = a.cells.length then a.cells ++ [0] else a.cells
    pointer := a.pointer + 1 }

/-- What is left behind at the end: the cells and the number of the selected one. -/
def row (a : Addressed) : List Cell × Nat := (a.cells, a.pointer)

/-! ### Steps -/

/-- What an operation comes to, in a state that has already passed it. -/
def perform? (range : CellRange) (host : Host σ) (a : Addressed) (h : σ) :
    Op → Option (Progress σ Addressed (List Cell × Nat))
  | .increment => do
    let v ← a.get?
    return .running (← a.set? (range.wrap (v + 1))) h
  | .decrement => do
    let v ← a.get?
    return .running (← a.set? (range.wrap (v - 1))) h
  | .left => return .running a.moveLeft h
  | .right => return .running a.moveRight h
  | .output => do
    let v ← a.get?
    return .running a (host.output v h)
  | .input =>
    match host.input h with
    | (some b, h) => do return .running (← a.set? (range.wrap (Int64.ofNat b.toNat))) h
    | (none, h) => return .ended .cancelled a.row h
  | .dump => return .running a (host.dump a.cells a.pointer h)

/-- One step, unless it reaches for a cell or an instruction that is not there. -/
def advance? (range : CellRange) (host : Host σ) (a : Addressed) (h : σ) :
    Option (Progress σ Addressed (List Cell × Nat)) :=
  match a.frames with
  | [] => return .ended .completed a.row h
  | (block, place) :: outer =>
    if place = block.length then
      match host.poll h with
      | (true, h) => return .ended .cancelled a.row h
      | (false, h) =>
        if outer = [] then return .running { a with frames := [] } h
        else do
          let v ← a.get?
          return .running { a with frames := if v = 0 then outer else (block, 0) :: outer } h
    else do
      let i ← block.instructions[place]?
      let passed := { a with frames := (block, place + 1) :: outer }
      match i with
      | .op o => passed.perform? range host h o
      | .loop body => do
        let entered := { passed with frames := (body, 0) :: passed.frames }
        let v ← a.get?
        return .running (if v = 0 then passed else entered) h

end Addressed

/-! ### The two machines -/

def Tape.row (t : Tape) : List Cell × Nat := (t.cells, t.pointer)

def Frame.addressed (frame : Frame) : Block × Nat := (frame.block, frame.place)

/-- A block that is started is at its first place. -/
theorem Frame.addressed_start (block : Block) : (start block).addressed = (block, 0) := by
  rw [addressed, place_start]
  rfl

/-- Behind an instruction a block is at the next place. -/
theorem Frame.Fits.addressed_pass {block rest next : Block} {i : Block.Instruction}
    (hfits : Fits ⟨block, rest⟩) (hrest : rest.instructions = i :: next.instructions) :
    addressed ⟨block, next⟩ = (block, place ⟨block, rest⟩ + 1) := by
  rw [addressed, (hfits.pass hrest).2]

/-- The state by addresses. -/
def State.addressed (s : State) : Addressed :=
  ⟨s.tape.cells, s.tape.pointer, s.frames.map Frame.addressed⟩

namespace Addressed

variable {range : CellRange} {host : Host σ} {t : Tape} {frames : List Frame}

theorem get?_addressed : (State.addressed ⟨t, frames⟩).get? = some t.here :=
  t.getElem?_cells_pointer

theorem set?_addressed (v : Cell) :
    (State.addressed ⟨t, frames⟩).set? v = some (State.addressed ⟨t.write v, frames⟩) := by
  have hlt : t.pointer < t.cells.length := by
    rw [t.length_cells]
    exact t.pointer_lt_size
  simp only [set?, State.addressed, hlt, if_true, t.cells_write, t.pointer_write]

theorem moveLeft_addressed :
    (State.addressed ⟨t, frames⟩).moveLeft = State.addressed ⟨t.moveLeft, frames⟩ := by
  simp only [moveLeft, State.addressed, t.cells_moveLeft, t.pointer_moveLeft]

theorem moveRight_addressed :
    (State.addressed ⟨t, frames⟩).moveRight = State.addressed ⟨t.moveRight, frames⟩ := by
  have hend : t.pointer + 1 = t.cells.length ↔ t.after = [] := by
    rw [t.length_cells, ← List.length_eq_zero_iff]
    simp only [Tape.pointer, Tape.size]
    omega
  simp only [moveRight, State.addressed, t.cells_moveRight, t.pointer_moveRight, hend]

/-- An operation finds its cell. -/
theorem perform?_addressed (block next : Block) (outer : List Frame) (o : Op) (h : σ) :
    (State.addressed ⟨t, ⟨block, next⟩ :: outer⟩).perform? range host h o =
      some ((Machine.advance range host ⟨t, ⟨block, .op o next⟩ :: outer⟩ h).map
        State.addressed Tape.row) := by
  -- Operations ask for the selected cell at most, and this one is there.
  cases o with
  | increment => simp only [perform?, get?_addressed, set?_addressed]; rfl
  | decrement => simp only [perform?, get?_addressed, set?_addressed]; rfl
  | left => simp only [perform?, moveLeft_addressed]; rfl
  | right => simp only [perform?, moveRight_addressed]; rfl
  | output => simp only [perform?, get?_addressed]; rfl
  | dump => rfl
  | input =>
    simp only [perform?, Machine.advance, State.step, State.perform]
    rcases host.input h with ⟨_ | b, h'⟩
    · rfl
    · simp only [set?_addressed]
      rfl

/-- At the end of a block the selected cell is looked at only if there is a frame below. -/
theorem advance?_addressed_done (block : Block) (outer : List Frame) (h : σ) :
    (State.addressed ⟨t, ⟨block, .done⟩ :: outer⟩).advance? range host h =
      some ((Machine.advance range host ⟨t, ⟨block, .done⟩ :: outer⟩ h).map
        State.addressed Tape.row) := by
  have hframes : (State.addressed ⟨t, ⟨block, .done⟩ :: outer⟩).frames =
      (block, block.length) :: outer.map Frame.addressed := rfl
  simp only [advance?, hframes, if_true, Machine.advance, State.step, get?_addressed]
  rcases host.poll h with ⟨_ | _, h'⟩
  · cases outer with
    | nil => rfl
    | cons frame outer =>
      -- A zero is left by the frame around, and any other value starts the block once more.
      by_cases hzero : t.here = 0
      · simp only [State.leave, hzero]
        rfl
      · have hagain : State.leave t ⟨block, .done⟩ (frame :: outer) =
            ⟨t, .start block :: frame :: outer⟩ := by
          simp [State.leave, hzero]
        simp only [hagain, List.map_cons, reduceCtorEq, if_false, Option.bind_eq_bind,
          Option.bind_some, hzero, Progress.map, State.addressed, Frame.addressed_start]
        rfl
  · rfl

/-- **A machine whose frames fit reaches for nothing that is not there**, and by addresses it does
what it does otherwise. -/
theorem advance?_addressed {s : State} (hfits : ∀ frame ∈ s.frames, frame.Fits) (h : σ) :
    s.addressed.advance? range host h =
      some ((Machine.advance range host s h).map State.addressed Tape.row) := by
  obtain ⟨t, frames⟩ := s
  cases frames with
  | nil => rfl
  | cons frame outer =>
    obtain ⟨block, rest⟩ := frame
    have hframe : Frame.Fits ⟨block, rest⟩ := hfits _ List.mem_cons_self
    -- That the frame fits says which instruction stands at its place, or that none does.
    have hget := hframe.getElem?_place
    have hend := hframe.place_eq_length_iff
    have hframes : (State.addressed ⟨t, ⟨block, rest⟩ :: outer⟩).frames =
        (block, Frame.place ⟨block, rest⟩) :: outer.map Frame.addressed := rfl
    cases rest with
    | done => exact advance?_addressed_done block outer h
    | op o next =>
      have hpass : Frame.addressed ⟨block, next⟩ = (block, Frame.place _ + 1) :=
        hframe.addressed_pass rfl
      simp only [advance?, hframes, hend, hget, reduceCtorEq, if_false, ← hpass]
      exact perform?_addressed block next outer o h
    | loop body next =>
      have hpass : Frame.addressed ⟨block, next⟩ = (block, Frame.place _ + 1) :=
        hframe.addressed_pass rfl
      simp only [advance?, hframes, hend, hget, reduceCtorEq, if_false, ← hpass, get?_addressed,
        Block.instructions, List.head?_cons, Option.bind_eq_bind, Option.bind_some,
        Machine.advance, State.step, Progress.map]
      by_cases hzero : t.here = 0
      · simp only [hzero, if_true]
        rfl
      · simp only [hzero, if_false, State.addressed, List.map_cons, Frame.addressed_start]
        rfl

/-- A state that no state of the machine is: its pointer is behind the last cell. -/
example : advance? .bytes Bare.host ⟨[0], 1, [(.op .increment .done, 0)]⟩ {} = none := rfl

end Addressed
end TapeLang
