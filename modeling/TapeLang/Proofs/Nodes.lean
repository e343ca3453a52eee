import Mathlib.Algebra.GroupWithZero.Nat
import TapeLang.Proofs.Places

/-!
# The instructions of a program

A program is a tree, and its instructions are the nodes.  A node is reached by a path: the place of
an instruction in the program, then, if that is a loop, the place of one in its body, and so on
(`Block.at?`).  The frames of a machine make such a path (`State.position`), and where they are
nested it leads to the instruction that the machine executes next (`Nested.at?_position`).

Paths are ordered as instructions are written, those of a body behind their loop.  Between two polls
a machine only goes on in this order (`Goes.position_lt`), and what lies ahead of it becomes less
with each instruction (`remaining`).
-/

namespace TapeLang

namespace Block

/-- The instruction at a path, if there is one. -/
def at? (b : Block) : List Nat → Option Instruction
  | [] => none
  | [i] => b.instructions[i]?
  | i :: j :: path =>
    match b.instructions[i]? with
    | some (.loop body) => body.at? (j :: path)
    | _ => none

/-- How many nodes an instruction is. -/
def Instruction.size : Instruction → Nat
  | op _ => 1
  | loop body => body.size + 1

theorem size_eq_sum (b : Block) : b.size = (b.instructions.map Instruction.size).sum := by
  induction b with
  | done => rfl
  | op o next ih =>
    rw [size, instructions, List.map_cons, List.sum_cons, ← ih, Instruction.size, Nat.add_comm]
  | loop body next _ ih =>
    rw [size, instructions, List.map_cons, List.sum_cons, ← ih, Instruction.size]
    omega

end Block

/-! ### Paths -/

/-- The path to the loops that the frames have just passed, from the outermost one. -/
def pathThrough (frames : List Frame) : List Nat :=
  (frames.map fun frame => frame.place - 1).reverse

namespace State

/-- Where a machine stands: the path to the loop that it is in, and its place in the body. -/
def position (s : State) : List Nat :=
  match s.frames with
  | [] => []
  | frame :: outer => pathThrough outer ++ [frame.place]

/-- The instruction that is executed next; there is none at the end of a block. -/
def next? (s : State) : Option Block.Instruction :=
  s.frames.head?.bind fun frame => frame.rest.instructions.head?

/-- The node that is executed next. -/
def node? (s : State) : Option (List Nat) := s.next?.map fun _ => s.position

end State

theorem pathThrough_cons (frame : Frame) (outer : List Frame) (path : List Nat) :
    pathThrough (frame :: outer) ++ path = pathThrough outer ++ (frame.place - 1) :: path := by
  simp [pathThrough]

namespace Nested

variable {program : Block} {frame : Frame} {outer : List Frame}

/-- Nested frames lead from the program into the innermost block. -/
theorem at?_pathThrough (h : Nested program (frame :: outer)) (i : Nat) (path : List Nat) :
    program.at? (pathThrough outer ++ i :: path) = frame.block.at? (i :: path) := by
  -- The frame may be any, for the induction goes outwards, where the loop that is left is next.
  induction outer generalizing frame i path with
  | nil =>
    rw [h.bottom frame rfl]
    rfl
  | cons around outer ih =>
    obtain ⟨hbehind, _⟩ := List.isChain_cons_cons.mp h.behind
    obtain ⟨j, hj, hloop⟩ := hbehind.exists_place
    have hsub : around.place - 1 = j := by omega
    rw [pathThrough_cons, ih h.leave, hsub, Block.at?, hloop]

/-- Where a machine stands, there is the instruction that it executes next. -/
theorem at?_position {s : State} {path : List Nat} (h : Nested program s.frames)
    (hnode : s.node? = some path) : program.at? path = s.next? := by
  obtain ⟨t, frames⟩ := s
  cases frames with
  | nil => cases hnode
  | cons frame outer =>
    obtain ⟨i, _, rfl⟩ := Option.map_eq_some_iff.mp hnode
    exact (h.at?_pathThrough frame.place []).trans h.head.getElem?_place

end Nested

/-! ### Going on between polls -/

section

variable {range : CellRange} {s s' : State} {call : Option Event} {program : Block}

/-- Without an instruction to execute, a machine that goes on polls its host. -/
theorem Goes.call_eq_of_next?_eq_none (h : Goes range s call s') (hnone : s.next? = none) :
    call = some (.poll false) := by
  cases h with
  | op _ => cases hnone
  | skip _ => cases hnone
  | enter _ => cases hnone
  | again _ => rfl
  | leave _ => rfl

/-- **A machine that executes an instruction goes on** in the order of paths. -/
theorem Goes.position_lt (h : Goes range s call s') (hnested : Nested program s.frames)
    (hsome : s.next? ≠ none) : s.position < s'.position := by
  -- Inside of one block the place grows by one and nothing else of the path changes.
  cases h with
  | op _ =>
    have hpass := (hnested.head.pass rfl).2
    refine List.append_left_lt (List.cons_lt_cons_iff.mpr (.inl ?_))
    omega
  | skip _ =>
    have hpass := (hnested.head.pass rfl).2
    refine List.append_left_lt (List.cons_lt_cons_iff.mpr (.inl ?_))
    omega
  | @enter t block body next outer _ =>
    have hpass := (hnested.head.pass rfl).2
    -- The body is at the place where the loop was, and its path goes on from there.
    have hsub : Frame.place ⟨block, next⟩ - 1 = Frame.place ⟨block, .loop body next⟩ := by omega
    show pathThrough outer ++ _ < pathThrough (_ :: outer) ++ _
    rw [pathThrough_cons, hsub]
    exact List.append_left_lt (List.cons_lt_cons_iff.mpr (.inr ⟨rfl, .nil⟩))
  | again _ => exact absurd rfl hsome
  | leave _ => exact absurd rfl hsome

end

/-! ### What lies ahead -/

/-- How many nodes lie ahead, if no loop is repeated. -/
def remaining (frames : List Frame) : Nat := (frames.map fun frame => frame.rest.size).sum

section

variable {program block body rest : Block} {frame : Frame} {outer : List Frame}

theorem remaining_cons (frame : Frame) (outer : List Frame) :
    remaining (frame :: outer) = frame.rest.size + remaining outer := rfl

/-- The end of a list of instructions has no more nodes than the list. -/
theorem sum_size_le_of_suffix {l l' : List Block.Instruction} (h : l <:+ l') :
    (l.map Block.Instruction.size).sum ≤ (l'.map Block.Instruction.size).sum := by
  obtain ⟨front, rfl⟩ := h
  rw [List.map_append, List.sum_append]
  exact Nat.le_add_left _ _

theorem Frame.Fits.size_le (h : frame.Fits) : frame.rest.size ≤ frame.block.size := by
  rw [Block.size_eq_sum, Block.size_eq_sum]
  exact sum_size_le_of_suffix h

theorem Frame.IsBehindLoop.size_lt (h : frame.IsBehindLoop body) :
    body.size + frame.rest.size < frame.block.size := by
  have hle := sum_size_le_of_suffix h
  rw [List.map_cons, List.sum_cons, ← Block.size_eq_sum, ← Block.size_eq_sum,
    Block.Instruction.size] at hle
  omega

/-- The innermost block and all that lies ahead behind it are part of the program. -/
theorem Nested.size_add_remaining_le (h : Nested program (frame :: outer)) :
    frame.block.size + remaining outer ≤ program.size := by
  -- The body of a loop and what lies ahead behind it are less than the block around it.
  induction outer generalizing frame with
  | nil =>
    rw [h.bottom frame rfl]
    exact Nat.le_refl _
  | cons around outer ih =>
    obtain ⟨hbehind, _⟩ := List.isChain_cons_cons.mp h.behind
    have hlt := hbehind.size_lt
    have hle := ih h.leave
    rw [remaining_cons]
    omega

/-- No more nodes lie ahead than the program has. -/
theorem Nested.remaining_le {frames : List Frame} (h : Nested program frames) :
    remaining frames ≤ program.size := by
  cases frames with
  | nil => exact Nat.zero_le _
  | cons frame outer =>
    have hsize := h.head.size_le
    have hle := h.size_add_remaining_le
    rw [remaining_cons]
    omega

variable {range : CellRange} {s s' : State} {call : Option Event}

/-- An instruction that is executed lies ahead. -/
theorem remaining_pos_of_next? (h : s.next? ≠ none) : 0 < remaining s.frames := by
  obtain ⟨t, frames⟩ := s
  cases frames with
  | nil => exact absurd rfl h
  | cons frame outer =>
    obtain ⟨block, rest⟩ := frame
    rw [remaining_cons]
    cases rest with
    | done => exact absurd rfl h
    | op o next => exact Nat.add_pos_left (Nat.succ_pos _) _
    | loop body next => exact Nat.add_pos_left (Nat.succ_pos _) _

/-- **Each instruction that is executed lies ahead no more.** -/
theorem Goes.remaining_lt (h : Goes range s call s') (hsome : s.next? ≠ none) :
    remaining s'.frames < remaining s.frames := by
  -- What is executed was counted and is passed. Entering a loop keeps its body ahead, but the loop
  -- counted for one more.
  cases h with
  | op _ =>
    simp only [remaining_cons, Block.size]
    omega
  | skip _ =>
    simp only [remaining_cons, Block.size]
    omega
  | enter _ =>
    simp only [remaining_cons, Block.size, Frame.start]
    omega
  | again _ => exact absurd rfl hsome
  | leave _ => exact absurd rfl hsome

end
end TapeLang
