import TapeLang.Proofs.Steps

/-!
# Execution by recursion on the program

A block is executed instruction by instruction, and a loop by executing its body again and again.
There is no stack: `Block.execute` is a recursion on the block, and `Result.andThen` passes on from
one instruction to the next unless the host has stopped the run.

A loop may go on without end.  So an execution has a *limit*, the number of turns that every entry
of a loop is given; a loop that would need more comes out as `unfinished`.  That a program never
ends means that it is unfinished for every limit.

Main statement: the parts of a block are executed one after the other (`execute_append`).
-/

namespace TapeLang

variable {σ : Type}

/-- What an execution comes to. -/
inductive Result (σ : Type)
  /-- It came to the end of the block. -/
  | finished (tape : Tape) (host : σ)
  /-- The host stopped the run. -/
  | cancelled (tape : Tape) (host : σ)
  /-- A loop was not left within its turns. -/
  | unfinished (tape : Tape) (host : σ)

namespace Result

def andThen (r : Result σ) (f : Tape → σ → Result σ) : Result σ :=
  match r with
  | finished t h => f t h
  | cancelled t h => cancelled t h
  | unfinished t h => unfinished t h

def host : Result σ → σ
  | finished _ h => h
  | cancelled _ h => h
  | unfinished _ h => h

@[simp]
theorem andThen_finished (t : Tape) (h : σ) (f : Tape → σ → Result σ) :
    (finished t h).andThen f = f t h := rfl

@[simp]
theorem andThen_cancelled (t : Tape) (h : σ) (f : Tape → σ → Result σ) :
    (cancelled t h).andThen f = cancelled t h := rfl

@[simp]
theorem andThen_unfinished (t : Tape) (h : σ) (f : Tape → σ → Result σ) :
    (unfinished t h).andThen f = unfinished t h := rfl

theorem andThen_eq_self (r : Result σ) : r.andThen finished = r := by
  cases r <;> rfl

theorem andThen_assoc (r : Result σ) (f g : Tape → σ → Result σ) :
    (r.andThen f).andThen g = r.andThen fun t h => (f t h).andThen g := by
  cases r <;> rfl

end Result

/-- The result of a whole program that ends with this outcome. -/
def Outcome.result (o : Outcome) (t : Tape) (h : σ) : Result σ :=
  match o with
  | completed => .finished t h
  | cancelled => .cancelled t h

/-! ### The semantics -/

/-- One poll: the run goes on unless the host stops it. -/
def Host.polled (host : Host σ) (t : Tape) (h : σ) : Result σ :=
  match host.poll h with
  | (true, h) => .cancelled t h
  | (false, h) => .finished t h

/-- One operation. -/
def Op.execute (range : CellRange) (host : Host σ) (o : Op) (t : Tape) (h : σ) : Result σ :=
  match o with
  | increment => .finished (t.write (range.wrap (t.here + 1))) h
  | decrement => .finished (t.write (range.wrap (t.here - 1))) h
  | left => .finished t.moveLeft h
  | right => .finished t.moveRight h
  | output => .finished t (host.output t.here h)
  | dump => .finished t (host.dump t.cells t.pointer h)
  | input =>
    match host.input h with
    | (some b, h) => .finished (t.write (range.wrap (Int64.ofNat b.toNat))) h
    | (none, h) => .cancelled t h

namespace Block

/-- So many turns of a loop.  A turn executes the body and polls the host; the loop is left behind
it if the selected cell is zero. -/
def turns (host : Host σ) (body : Tape → σ → Result σ) : Nat → Tape → σ → Result σ
  | 0, t, h => .unfinished t h
  | n + 1, t, h =>
    (body t h).andThen fun t h =>
      (host.polled t h).andThen fun t h =>
        if t.here = 0 then .finished t h else turns host body n t h

/-- A whole loop: nothing on a zero cell, and up to `limit` turns otherwise. -/
def repeated (host : Host σ) (body : Tape → σ → Result σ) (limit : Nat) (t : Tape) (h : σ) :
    Result σ :=
  if t.here = 0 then .finished t h else turns host body limit t h

/-- The execution of a block, with a limit on the turns of each loop. -/
def execute (range : CellRange) (host : Host σ) (limit : Nat) : Block → Tape → σ → Result σ
  | done, t, h => .finished t h
  | op o next, t, h => (o.execute range host t h).andThen (execute range host limit next)
  | loop body next, t, h =>
    (repeated host (execute range host limit body) limit t h).andThen
      (execute range host limit next)

/-- The execution of a program: its block once, from a fresh tape, and one poll. -/
def executeProgram (range : CellRange) (host : Host σ) (limit : Nat) (program : Block) (h : σ) :
    Result σ :=
  (program.execute range host limit .fresh h).andThen host.polled

/-- A block with another one behind it. -/
def append : Block → Block → Block
  | done, second => second
  | op o next, second => op o (next.append second)
  | loop body next, second => loop body (next.append second)

/-- **The parts of a block are executed one after the other.** -/
theorem execute_append (range : CellRange) (host : Host σ) (limit : Nat) (first second : Block)
    (t : Tape) (h : σ) :
    (first.append second).execute range host limit t h =
      (first.execute range host limit t h).andThen (second.execute range host limit) := by
  -- The induction is on the first block, in whose last place the second one stands.
  induction first generalizing t h with
  | done => rfl
  | op o next ih =>
    rw [append, execute, execute, Result.andThen_assoc]
    congr 1
    funext t h
    exact ih t h
  | loop body next _ ih =>
    rw [append, execute, execute, Result.andThen_assoc]
    congr 1
    funext t h
    exact ih t h

theorem here_of_turns_eq_finished {host : Host σ} {body : Tape → σ → Result σ} {n : Nat}
    {t t' : Tape} {h h' : σ} (heq : turns host body n t h = .finished t' h') : t'.here = 0 := by
  -- A loop that comes to its end has found a zero in some turn; by induction on the turns that were
  -- left.
  induction n generalizing t h with
  | zero => simp [turns] at heq
  | succ n ih =>
    rw [turns] at heq
    cases hbody : body t h with
    | finished t₁ h₁ =>
      rw [hbody, Result.andThen_finished] at heq
      cases hpoll : host.polled t₁ h₁ with
      | finished t₂ h₂ =>
        rw [hpoll, Result.andThen_finished] at heq
        split at heq
        · next hzero =>
          obtain ⟨rfl, rfl⟩ : t₂ = t' ∧ h₂ = h' := by simpa using heq
          exact hzero
        · exact ih heq
      | cancelled t₂ h₂ => simp [hpoll] at heq
      | unfinished t₂ h₂ => simp [hpoll] at heq
    | cancelled t₁ h₁ => simp [hbody] at heq
    | unfinished t₁ h₁ => simp [hbody] at heq

/-- A loop leaves zero in the selected cell. -/
theorem here_of_repeated_eq_finished {host : Host σ} {body : Tape → σ → Result σ} {limit : Nat}
    {t t' : Tape} {h h' : σ} (heq : repeated host body limit t h = .finished t' h') :
    t'.here = 0 := by
  unfold repeated at heq
  split at heq
  · next hzero =>
    obtain ⟨rfl, rfl⟩ : t = t' ∧ h = h' := by simpa using heq
    exact hzero
  · exact here_of_turns_eq_finished heq

end Block

end TapeLang
