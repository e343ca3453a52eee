import TapeLang.Program.Parser
import TapeLang.Proofs.Transitions

/-!
# Places in a program

A block is a list of instructions (`Block.instructions`), and a frame keeps what is still to be done
of it.  The *place* of a frame is the number of instructions that it has behind it.

The frames of a run are always `Nested`: each of them stands somewhere in its block, the outermost
block is the program, and every other block is the body of the loop that the frame around it has
just passed (`nested_recorded`).
-/

namespace TapeLang

/-! ### Instructions of a block -/

namespace Block

/-- The instructions of a block, one after the other. -/
def instructions : Block → List Instruction
  | done => []
  | op o next => .op o :: next.instructions
  | loop body next => .loop body :: next.instructions

@[simp]
theorem length_instructions (b : Block) : b.instructions.length = b.length := by
  induction b with
  | done => rfl
  | op o next ih => rw [instructions, List.length_cons, ih, length]
  | loop body next _ ih => rw [instructions, List.length_cons, ih, length]

@[simp]
theorem length_eq_zero_iff {b : Block} : b.length = 0 ↔ b = done := by
  cases b <;> simp [length]

end Block

/-! ### The place of a frame -/

namespace Frame

/-- How many instructions of its block a frame has passed. -/
def place (frame : Frame) : Nat := frame.block.length - frame.rest.length

/-- What is still to be done is the end of the block. -/
def Fits (frame : Frame) : Prop := frame.rest.instructions <:+ frame.block.instructions

/-- The last instruction that the frame has passed is the loop over `body`. -/
def IsBehindLoop (frame : Frame) (body : Block) : Prop :=
  .loop body :: frame.rest.instructions <:+ frame.block.instructions

variable {frame : Frame} {block rest body : Block} {i : Block.Instruction}

theorem fits_start (block : Block) : (start block).Fits := List.suffix_rfl

@[simp]
theorem place_start (block : Block) : (start block).place = 0 := Nat.sub_self _

/-- What is passed and what is left make up the block. -/
theorem Fits.place_add_length (h : frame.Fits) :
    frame.place + frame.rest.length = frame.block.length := by
  have hle := h.length_le
  simp only [Block.length_instructions] at hle
  rw [place]
  omega

theorem Fits.place_le (h : frame.Fits) : frame.place ≤ frame.block.length := by
  have hadd := h.place_add_length
  omega

/-- What is left is what stands from the place on. -/
theorem Fits.drop_place (h : frame.Fits) :
    frame.block.instructions.drop frame.place = frame.rest.instructions := by
  have hdrop := List.suffix_iff_eq_drop.mp h
  rw [Block.length_instructions, Block.length_instructions] at hdrop
  exact hdrop.symm

/-- The next instruction stands at the place. -/
theorem Fits.getElem?_place (h : frame.Fits) :
    frame.block.instructions[frame.place]? = frame.rest.instructions.head? := by
  rw [← h.drop_place, List.head?_drop]

/-- A frame is at the end of its block if nothing is left. -/
theorem Fits.place_eq_length_iff (h : frame.Fits) :
    frame.place = frame.block.length ↔ frame.rest = .done := by
  rw [← Block.length_eq_zero_iff, ← h.place_add_length]
  omega

/-- Passing an instruction is one place. -/
theorem Fits.pass (hfits : Fits ⟨block, rest⟩) {next : Block}
    (hrest : rest.instructions = i :: next.instructions) :
    Fits ⟨block, next⟩ ∧ place ⟨block, next⟩ = place ⟨block, rest⟩ + 1 := by
  have hnext : Fits ⟨block, next⟩ := by
    -- What stands behind a part of a block is a part of it as well.
    have hsuffix : next.instructions <:+ rest.instructions := hrest ▸ List.suffix_cons i _
    exact hsuffix.trans hfits
  have hlength : rest.length = next.length + 1 := by
    rw [← Block.length_instructions, hrest, List.length_cons, Block.length_instructions]
  have hadd := hfits.place_add_length
  have hadd' := hnext.place_add_length
  dsimp only at hadd hadd'
  exact ⟨hnext, by omega⟩

theorem IsBehindLoop.fits (h : frame.IsBehindLoop body) : frame.Fits :=
  (List.suffix_cons _ _).trans h

/-- The loop stands right before the place. -/
theorem IsBehindLoop.exists_place (h : frame.IsBehindLoop body) :
    ∃ i, frame.place = i + 1 ∧ frame.block.instructions[i]? = some (.loop body) := by
  have hfits : Fits ⟨frame.block, .loop body frame.rest⟩ := h
  refine ⟨_, (hfits.pass rfl).2, ?_⟩
  exact hfits.getElem?_place

end Frame

/-! ### Nested frames -/

/-- The frames of a run of a program, innermost first: each stands in its block, the outermost
block is the program, and each other one is the loop that the frame around it has just passed. -/
structure Nested (program : Block) (frames : List Frame) : Prop where
  fits : ∀ frame ∈ frames, frame.Fits
  bottom : ∀ frame, frames.getLast? = some frame → frame.block = program
  behind : frames.IsChain fun inner outer => outer.IsBehindLoop inner.block

namespace Nested

variable {program block body next rest : Block} {outer : List Frame} {frame : Frame}

theorem start (program : Block) : Nested program [.start program] where
  fits frame hframe := by
    obtain rfl := List.mem_singleton.mp hframe
    exact Frame.fits_start program
  bottom frame hframe := by
    obtain rfl : Frame.start program = frame := by simpa using hframe
    rfl
  behind := .singleton _

theorem head (h : Nested program (frame :: outer)) : frame.Fits :=
  h.fits frame List.mem_cons_self

/-- The innermost frame may stand anywhere in its block. -/
theorem at_place (h : Nested program (⟨block, rest⟩ :: outer)) (hfits : Frame.Fits ⟨block, next⟩) :
    Nested program (⟨block, next⟩ :: outer) where
  fits := List.forall_mem_cons.mpr ⟨hfits, fun f hf => h.fits f (List.mem_cons_of_mem _ hf)⟩
  -- Only the innermost frame is another, and the other frames say nothing of where it stands.
  bottom f hf := by
    cases outer with
    | nil =>
      obtain rfl : Frame.mk block next = f := by simpa using hf
      exact h.bottom ⟨block, rest⟩ rfl
    | cons frame outer => exact h.bottom f hf
  behind := by
    have hchain := h.behind
    cases outer with
    | nil => exact .singleton _
    | cons frame outer =>
      obtain ⟨hframe, hrest⟩ := List.isChain_cons_cons.mp hchain
      exact .cons_cons hframe hrest

/-- The body of a loop is entered behind the loop. -/
theorem enter (h : Nested program (⟨block, .loop body next⟩ :: outer)) :
    Nested program (.start body :: ⟨block, next⟩ :: outer) := by
  have hbehind : Frame.IsBehindLoop ⟨block, next⟩ body := h.head
  have hpassed := h.at_place hbehind.fits
  exact
    { fits := List.forall_mem_cons.mpr ⟨Frame.fits_start body, hpassed.fits⟩
      bottom := fun f hf => hpassed.bottom f (by rwa [List.getLast?_cons_cons] at hf)
      behind := .cons_cons hbehind hpassed.behind }

/-- A frame that is left leaves the others alone. -/
theorem leave (h : Nested program (frame :: outer)) : Nested program outer where
  fits f hf := h.fits f (List.mem_cons_of_mem _ hf)
  bottom f hf := by
    cases outer with
    | nil => cases hf
    | cons frame' outer => exact h.bottom f (by rwa [List.getLast?_cons_cons])
  behind := h.behind.of_cons

/-- Every step keeps the frames nested. -/
theorem goes {range : CellRange} {s s' : State} {call : Option Event}
    (h : Nested program s.frames) (hgoes : Goes range s call s') : Nested program s'.frames := by
  cases hgoes with
  | op _ => exact h.at_place (h.head.pass rfl).1
  | skip _ => exact h.at_place (h.head.pass rfl).1
  | enter _ => exact h.enter
  | again _ => exact h.at_place (Frame.fits_start _)
  | leave _ => exact h.leave

end Nested

/-- **The frames of a run are nested** at all times. -/
theorem Machine.nested_recorded {σ : Type} {range : CellRange} {host : Host σ} {program : Block}
    {h : σ} {n : Nat} {s : State} {t : Traced σ}
    (hn : recorded range host program h n = .running s t) : Nested program s.frames := by
  have hmeets : (recorded range host program h n).Meets fun s => Nested program s.frames := by
    -- The invariant is said of a point of the run that has not ended; one that has asks for
    -- nothing.
    refine recorded_induction (P := fun _ p => p.Meets fun s => Nested program s.frames) ?_ ?_ n
    · exact Nested.start program
    intro n p p' _ _ hp hturn
    cases hturn with
    | goes hgoes _ => exact hp.goes hgoes
    | stops _ _ => trivial
    | rests => trivial
  rwa [hn] at hmeets

end TapeLang
