import TapeLang.Host.Buffered
import TapeLang.Proofs.Brackets
import TapeLang.Proofs.FrameStack
import TapeLang.Proofs.Ribbon

/-!
# Programs as flat texts

The classical reading of a program knows no blocks.  A program counter stands in the text, and a
bracket makes it jump to its partner, which is searched for by counting brackets.  The memory is a
ribbon.  `Flat.advance` is this interpreter, one character a step.

Main statement: for every text with balanced brackets, the machine that executes the program read
from the text and the flat interpreter make the same calls and end with the same outcome and the
same memory, if one of them ends (`recorded_agrees_with_flat`).  Both do what the recursive
execution of the program says; for the flat interpreter this is `Flat.follows_execute`, an induction
on how the text spells the program.
-/

namespace TapeLang

/-- A state of the flat interpreter. -/
structure Flat where
  /-- The place of the next character, counted from zero. -/
  counter : Nat
  ribbon : Ribbon

namespace Flat

variable {σ : Type}

/-- How many characters of a text there are up to the first `closing` bracket that has no `opening`
one before it in the text, with `depth` brackets to be closed before. -/
def distance (opening closing : Char) : Nat → List Char → Nat
  | _, [] => 0
  | depth, c :: cs =>
    if c = closing then
      if depth = 0 then 1 else distance opening closing (depth - 1) cs + 1
    else if c = opening then distance opening closing (depth + 1) cs + 1
    else distance opening closing depth cs + 1

/-- The place behind the `]` that matches the `[` at a place. -/
def behindClosing (text : List Char) (place : Nat) : Nat :=
  place + 1 + distance '[' ']' 0 (text.drop (place + 1))

/-- The place behind the `[` that matches the `]` at a place. -/
def behindOpening (text : List Char) (place : Nat) : Nat :=
  place + 1 - distance ']' '[' 0 (text.take place).reverse

/-- One step of the flat interpreter, with cells in the given range. -/
def advance (range : CellRange) (host : Host σ) (text : List Char) (s : Flat) (h : σ) :
    Progress σ Flat Ribbon :=
  let here := s.ribbon.here
  let onward (ribbon : Ribbon) (h : σ) : Progress σ Flat Ribbon :=
    .running ⟨s.counter + 1, ribbon⟩ h
  match text[s.counter]? with
  | none =>
    match host.poll h with
    | (true, h) => .ended .cancelled s.ribbon h
    | (false, h) => .ended .completed s.ribbon h
  | some c =>
    if c = '+' then onward (s.ribbon.write (range.wrap (here + 1))) h
    else if c = '-' then onward (s.ribbon.write (range.wrap (here - 1))) h
    else if c = '<' then onward s.ribbon.moveLeft h
    else if c = '>' then onward s.ribbon.moveRight h
    else if c = '.' then onward s.ribbon (host.output here h)
    else if c = ',' then
      match host.input h with
      | (some b, h) => onward (s.ribbon.write (range.wrap (Int64.ofNat b.toNat))) h
      | (none, h) => .ended .cancelled s.ribbon h
    else if c = '~' then onward s.ribbon (host.dump s.ribbon.visited s.ribbon.pointer h)
    else if c = '[' then
      if here = 0 then .running ⟨behindClosing text s.counter, s.ribbon⟩ h else onward s.ribbon h
    else if c = ']' then
      match host.poll h with
      | (true, h) => .ended .cancelled s.ribbon h
      | (false, h) =>
        if here = 0 then onward s.ribbon h
        else .running ⟨behindOpening text s.counter, s.ribbon⟩ h
    else onward s.ribbon h

/-- The run of the flat interpreter with its calls written down, after so many steps. -/
def recorded (range : CellRange) (host : Host σ) (text : List Char) (h : σ) (steps : Nat) :
    Progress (Traced σ) Flat Ribbon :=
  Progress.iterate (advance range host.traced text) steps ⟨0, .blank⟩ { host := h }

theorem callsOnce_advance {range : CellRange} {host : Host σ} {text : List Char} :
    Progress.CallsOnce (advance range host.traced text) := by
  intro s t
  -- A step makes no call, or the one whose answer it uses; which of them is a matter of cases.
  have hquiet {p : Progress (Traced σ) Flat Ribbon} (hp : p.host = t) :
      ∃ new : Option Event, p.calls = t.events.toList ++ new.toList :=
    ⟨none, by simp [Progress.calls, hp]⟩
  have hcall {p : Progress (Traced σ) Flat Ribbon} (e : Event)
      (hp : p.host.events = t.events.push e) :
      ∃ new : Option Event, p.calls = t.events.toList ++ new.toList :=
    ⟨some e, by simp [Progress.calls, hp]⟩
  have hite {q : Prop} [Decidable q] {p p' : Progress (Traced σ) Flat Ribbon}
      (hp : ∃ new : Option Event, p.calls = t.events.toList ++ new.toList)
      (hp' : ∃ new : Option Event, p'.calls = t.events.toList ++ new.toList) :
      ∃ new : Option Event, (if q then p else p').calls = t.events.toList ++ new.toList := by
    by_cases hq : q
    · rwa [if_pos hq]
    · rwa [if_neg hq]
  unfold advance
  cases text[s.counter]? with
  | none =>
    rcases hpoll : host.poll t.host with ⟨_ | _, h⟩ <;>
      exact hcall (.poll (host.poll t.host).1) (by simp [hpoll, Progress.host, Host.traced])
  | some c =>
    refine hite (hquiet rfl) (hite (hquiet rfl) (hite (hquiet rfl) (hite (hquiet rfl) (hite
      (hcall (.output s.ribbon.here) rfl) (hite ?input (hite
        (hcall (.dump s.ribbon.visited s.ribbon.pointer) rfl) (hite
          (hite (hquiet rfl) (hquiet rfl)) (hite ?poll (hquiet rfl)))))))))
    case input =>
      rcases hin : host.input t.host with ⟨_ | b, h⟩ <;>
        exact hcall (.input (host.input t.host).1) (by simp [hin, Progress.host, Host.traced])
    case poll =>
      rcases hpoll : host.poll t.host with ⟨_ | _, h⟩
      · refine hcall (.poll false) ?_
        simp only [Host.traced, hpoll]
        split <;> rfl
      · exact hcall (.poll true) (by simp [hpoll, Progress.host, Host.traced])

/-! ### Jumps -/

/-- A spelled text does not change the depth of brackets. -/
theorem distance_append_of_spells {b : Block} {bs : List Char} (hb : Block.Spells b bs)
    (depth : Nat) (rest : List Char) :
    distance '[' ']' depth (bs ++ rest) = bs.length + distance '[' ']' depth rest := by
  -- The induction is on the spelling, and the depth varies: it is one more inside of a loop.
  induction hb generalizing depth rest with
  | done => simp
  | comment hop hopen hclose _ ih =>
    simp only [List.cons_append, distance, hopen, hclose, if_false, ih, List.length_cons]
    omega
  | op hop _ ih =>
    obtain ⟨hopen, hclose⟩ := Block.ne_bracket_of_ofSymbol? hop
    simp only [List.cons_append, distance, hopen, hclose, if_false, ih, List.length_cons]
    omega
  | @loop body next inner cs _ _ ihBody ihNext =>
    have hsplit : '[' :: (inner ++ ']' :: cs) ++ rest = '[' :: (inner ++ ']' :: (cs ++ rest)) := by
      simp
    rw [hsplit, distance, if_neg (by decide), if_pos rfl, ihBody, distance, if_pos rfl,
      if_neg (Nat.succ_ne_zero depth), Nat.add_sub_cancel, ihNext]
    simp only [List.length_cons, List.length_append]
    omega

theorem distance_reverse_append_of_spells {b : Block} {bs : List Char} (hb : Block.Spells b bs)
    (depth : Nat) (rest : List Char) :
    distance ']' '[' depth (bs.reverse ++ rest) = bs.length + distance ']' '[' depth rest := by
  induction hb generalizing depth rest with
  | done => simp
  | comment hop hopen hclose _ ih =>
    rw [List.reverse_cons, List.append_assoc, ih, List.singleton_append, distance, if_neg hopen,
      if_neg hclose, List.length_cons]
    omega
  | op hop _ ih =>
    obtain ⟨hopen, hclose⟩ := Block.ne_bracket_of_ofSymbol? hop
    rw [List.reverse_cons, List.append_assoc, ih, List.singleton_append, distance, if_neg hopen,
      if_neg hclose, List.length_cons]
    omega
  -- Read backwards, what stands behind the loop comes first, and its `]` before the body.
  | @loop body next inner cs _ _ ihBody ihNext =>
    have hsplit : ('[' :: (inner ++ ']' :: cs)).reverse ++ rest =
        cs.reverse ++ ']' :: (inner.reverse ++ '[' :: rest) := by
      simp
    rw [hsplit, ihNext, distance, if_neg (by decide), if_pos rfl, ihBody, distance, if_pos rfl,
      if_neg (Nat.succ_ne_zero depth), Nat.add_sub_cancel]
    simp only [List.length_cons, List.length_append]
    omega

/-- The jump over a loop. -/
theorem behindClosing_eq {body : Block} {inner : List Char} (hbody : Block.Spells body inner)
    (front back : List Char) :
    behindClosing (front ++ '[' :: (inner ++ ']' :: back)) front.length =
      front.length + inner.length + 2 := by
  have hdrop : (front ++ '[' :: (inner ++ ']' :: back)).drop (front.length + 1) =
      inner ++ ']' :: back := by
    simp [← List.drop_drop]
  rw [behindClosing, hdrop, distance_append_of_spells hbody, distance, if_pos rfl, if_pos rfl]
  omega

/-- The jump back to the start of a loop. -/
theorem behindOpening_eq {body : Block} {inner : List Char} (hbody : Block.Spells body inner)
    (front back : List Char) :
    behindOpening (front ++ '[' :: (inner ++ ']' :: back)) (front.length + 1 + inner.length) =
      front.length + 1 := by
  -- The scan back starts inside of the brackets, with the end of the body.
  have htake : (front ++ '[' :: (inner ++ ']' :: back)).take (front.length + 1 + inner.length) =
      front ++ '[' :: inner := by
    rw [← List.cons_append, ← List.append_assoc]
    exact List.take_left' (by simp; omega)
  rw [behindOpening, htake]
  simp only [List.reverse_append, List.reverse_cons, List.append_assoc, List.singleton_append]
  rw [distance_reverse_append_of_spells hbody, distance, if_pos rfl, if_pos rfl]
  omega

/-! ### The flat interpreter executes what its text spells -/

open Progress

variable {range : CellRange} {host : Host σ} {text : List Char} {t : Tape} {r : Ribbon}

/-- The interpreter stands at a place, and its ribbon shows the tape. -/
def StandsAt (place : Nat) (t : Tape) (s : Flat) : Prop :=
  s.counter = place ∧ s.ribbon.Shows t

theorem follows_onward {bound place : Nat} {h h' : σ} {t' : Tape} {r' : Ribbon}
    (hstep : advance range host text ⟨place, r⟩ h = .running ⟨place + 1, r'⟩ h')
    (hshows : r'.Shows t') :
    Follows (advance range host text) (fun t r => r.Shows t) (StandsAt (place + 1)) bound
      ⟨place, r⟩ h (.finished t' h') :=
  follows_step hstep ⟨rfl, hshows⟩

theorem follows_op (bound : Nat) {place : Nat} {c : Char} {o : Op} (hget : text[place]? = some c)
    (hop : Op.ofSymbol? c = some o) (hshows : r.Shows t) (h : σ) :
    Follows (advance range host text) (fun t r => r.Shows t) (StandsAt (place + 1)) bound
      ⟨place, r⟩ h (o.execute range host t h) := by
  obtain rfl := Op.symbol_of_ofSymbol? hop
  have hhere := hshows.here_eq
  cases o with
  | increment => exact follows_onward (by simp [advance, hget, Op.symbol, hhere]) (hshows.write _)
  | decrement => exact follows_onward (by simp [advance, hget, Op.symbol, hhere]) (hshows.write _)
  | left => exact follows_onward (by simp [advance, hget, Op.symbol]) hshows.moveLeft
  | right => exact follows_onward (by simp [advance, hget, Op.symbol]) hshows.moveRight
  | output => exact follows_onward (by simp [advance, hget, Op.symbol, hhere]) hshows
  | dump =>
    exact follows_onward
      (by simp [advance, hget, Op.symbol, hshows.cells_eq, hshows.pointer_eq]) hshows
  | input =>
    rcases hin : host.input h with ⟨_ | b, h'⟩
    · simp only [Op.execute, hin]
      exact follows_cancelled (by simp [advance, hget, Op.symbol, hin]) hshows
    · simp only [Op.execute, hin]
      exact follows_onward (by simp [advance, hget, Op.symbol, hin]) (hshows.write _)

theorem advance_comment {place : Nat} {c : Char} (hget : text[place]? = some c)
    (hop : Op.ofSymbol? c = none) (hopen : c ≠ '[') (hclose : c ≠ ']') (h : σ) :
    advance range host text ⟨place, r⟩ h = .running ⟨place + 1, r⟩ h := by
  -- Any other character than a symbol or a bracket falls through to the last case.
  have hne (o : Op) : c ≠ o.symbol := by
    rintro rfl
    simp at hop
  have h₁ : c ≠ '+' := hne .increment
  have h₂ : c ≠ '-' := hne .decrement
  have h₃ : c ≠ '<' := hne .left
  have h₄ : c ≠ '>' := hne .right
  have h₅ : c ≠ '.' := hne .output
  have h₆ : c ≠ ',' := hne .input
  have h₇ : c ≠ '~' := hne .dump
  simp [advance, hget, h₁, h₂, h₃, h₄, h₅, h₆, h₇, hopen, hclose]

/-- So many turns of a loop: the body stands in the text from `start` on, and the `]` behind it
leads back there. -/
theorem follows_turns {limit start close : Nat} {body : Block}
    (hbody : ∀ {t r} (h : σ), Ribbon.Shows t r → Follows (advance range host text)
      (fun t r => r.Shows t) (StandsAt close) limit ⟨start, r⟩ h
      (body.execute range host limit t h))
    (hget : text[close]? = some ']') (hback : behindOpening text close = start)
    (n : Nat) (hn : n ≤ limit) (hshows : r.Shows t) (h : σ) :
    Follows (advance range host text) (fun t r => r.Shows t) (StandsAt (close + 1)) n ⟨start, r⟩ h
      (Block.turns host (body.execute range host limit) n t h) := by
  -- The induction is on the turns that may still be taken. The place is `start` again after each of
  -- them, and only the memory has changed.
  induction n generalizing t r h with
  | zero => exact ⟨0, _, Nat.le_refl 0, rfl⟩
  | succ n ih =>
    rw [Block.turns]
    refine ((hbody h hshows).mono hn).andThen fun t' s h' _ hs => ?_
    obtain ⟨counter, r'⟩ := s
    obtain ⟨rfl, hshows'⟩ := hs
    rcases hpoll : host.poll h' with ⟨_ | _, h''⟩
    · simp only [Host.polled, hpoll, Result.andThen_finished]
      by_cases hzero : t'.here = 0
      · rw [if_pos hzero]
        exact follows_onward (by simp [advance, hget, hpoll, ← hshows'.here_eq, hzero]) hshows'
      · have hstep : advance range host text ⟨counter, r'⟩ h' = .running ⟨start, r'⟩ h'' := by
          simp [advance, hget, hpoll, ← hshows'.here_eq, hzero, hback]
        rw [if_neg hzero]
        exact (ih (Nat.le_of_succ_le hn) hshows' h'').step hstep
    · simp only [Host.polled, hpoll, Result.andThen_cancelled]
      exact follows_cancelled (by simp [advance, hget, hpoll]) hshows'

/-- The flat interpreter executes a part of its text like the block that the part spells. -/
theorem follows_execute (limit : Nat) {b : Block} {bs : List Char} (hb : Block.Spells b bs)
    (front back : List Char) (htext : text = front ++ (bs ++ back)) (hshows : r.Shows t) (h : σ) :
    Follows (advance range host text) (fun t r => r.Shows t) (StandsAt (front.length + bs.length))
      limit ⟨front.length, r⟩ h (b.execute range host limit t h) := by
  -- What stands before the part grows with each character that is passed, so it varies with the
  -- place.
  induction hb generalizing front back t r h with
  | done => exact follows_finished ⟨rfl, hshows⟩
  | @comment b c cs hop hopen hclose _ ih =>
    have hget : text[front.length]? = some c := by simp [htext]
    have hstep : advance range host text ⟨front.length, r⟩ h = .running ⟨front.length + 1, r⟩ h :=
      advance_comment hget hop hopen hclose h
    have hnext := ih (front ++ [c]) back (by simp [htext]) hshows h
    simp only [List.length_append, List.length_singleton] at hnext
    rw [List.length_cons, Nat.add_comm cs.length, ← Nat.add_assoc]
    -- A comment takes a step that the execution does not, and the limit leaves room for it.
    exact (hnext.step hstep).mono (Nat.le_succ limit)
  | @op o next c cs hop _ ih =>
    have hget : text[front.length]? = some c := by simp [htext]
    refine (follows_op limit hget hop hshows h).andThen fun t' s h' _ hs => ?_
    obtain ⟨counter, r'⟩ := s
    obtain ⟨rfl, hshows'⟩ := hs
    have hnext := ih (front ++ [c]) back (by simp [htext]) hshows' h'
    simp only [List.length_append, List.length_singleton] at hnext
    rw [List.length_cons, Nat.add_comm cs.length, ← Nat.add_assoc]
    exact hnext
  | @loop body next inner cs hbody _ ihBody ihNext =>
    have htext' : text = front ++ '[' :: (inner ++ ']' :: (cs ++ back)) := by simp [htext]
    have hget : text[front.length]? = some '[' := by simp [htext']
    have hgetClose : text[front.length + 1 + inner.length]? = some ']' := by
      have hfront : front.length + 1 + inner.length = (front ++ '[' :: inner).length := by
        simp
        omega
      rw [hfront, htext', ← List.cons_append, ← List.append_assoc]
      simp
    -- The brackets are found by their partners: `[` leads behind the `]` on a zero, and `]` behind
    -- the `[` on any other value.
    have hloop : Follows (advance range host text) (fun t r => r.Shows t)
        (StandsAt (front.length + 1 + inner.length + 1)) limit ⟨front.length, r⟩ h
        (Block.repeated host (body.execute range host limit) limit t h) := by
      unfold Block.repeated
      split
      · next hzero =>
        have hstep : advance range host text ⟨front.length, r⟩ h =
            .running ⟨behindClosing text front.length, r⟩ h := by
          simp [advance, hget, ← hshows.here_eq, hzero]
        refine follows_step hstep ⟨?_, hshows⟩
        show behindClosing text front.length = _
        rw [htext', behindClosing_eq hbody]
        omega
      · next hzero =>
        have hstep : advance range host text ⟨front.length, r⟩ h =
            .running ⟨front.length + 1, r⟩ h := by
          simp [advance, hget, ← hshows.here_eq, hzero]
        refine Follows.mono (Nat.le_succ limit) (Follows.step hstep ?_)
        refine follows_turns (fun {t r} h hshows => ?_) hgetClose
          (by rw [htext', behindOpening_eq hbody]) limit (Nat.le_refl limit) hshows h
        have := ihBody (front ++ ['[']) (']' :: (cs ++ back)) (by simp [htext']) hshows h
        simpa using this
    refine hloop.andThen fun t' s h' _ hs => ?_
    obtain ⟨counter, r'⟩ := s
    obtain ⟨rfl, hshows'⟩ := hs
    have hnext := ihNext (front ++ '[' :: (inner ++ [']'])) back (by simp [htext']) hshows' h'
    have hlen : (front ++ '[' :: (inner ++ [']'])).length =
        front.length + 1 + inner.length + 1 := by
      simp
      omega
    have hplace : front.length + ('[' :: (inner ++ ']' :: cs)).length =
        front.length + 1 + inner.length + 1 + cs.length := by
      simp
      omega
    rw [hlen] at hnext
    rw [hplace]
    exact hnext

/-- **The flat interpreter performs the execution of the program that its text spells.** -/
theorem performs_executeProgram (limit : Nat) {program : Block}
    (hspells : Block.Spells program text) (h : σ) :
    Performs (advance range host text) (fun t r => r.Shows t) limit ⟨0, .blank⟩ h
      (program.executeProgram range host limit h) := by
  have hfollows : Follows (advance range host text) (fun t r => r.Shows t) _ limit _ h _ :=
    follows_execute limit hspells [] [] (by simp) Ribbon.Shows.fresh h
  refine hfollows.performs fun t s h' hs => ?_
  obtain ⟨counter, r⟩ := s
  obtain ⟨rfl, hshows⟩ := hs
  -- Behind the last character there is one poll.
  rcases hpoll : host.poll h' with ⟨_ | _, h''⟩
  · simp only [Host.polled, hpoll]
    exact ⟨1, r, by simp [iterate, advance, hpoll, andThen], hshows⟩
  · simp only [Host.polled, hpoll]
    exact ⟨1, r, by simp [iterate, advance, hpoll, andThen], hshows⟩

/-- **The machine is a flat interpreter**: for a text with balanced brackets the run of the program
read from it and the run along the text itself make the same calls, and if one of them ends, then so
does the other, with the same outcome and the same memory. -/
theorem recorded_agrees_with_flat (range : CellRange) (host : Host σ) {text : String}
    (balanced : Block.Balanced text.toList) (h : σ) :
    ∃ program, Block.parse text = .ok program ∧
      Agree Eq (fun tape ribbon => ribbon.Shows tape) (Machine.recorded range host program h)
        (recorded range host text.toList h) := by
  obtain ⟨program, hparse⟩ := Block.exists_parse_of_balanced balanced
  refine ⟨program, hparse, ?_⟩
  rw [Machine.recorded_eq_iterate]
  exact agree_of_related (R := fun t h t' h' => t = t' ∧ h = h') Machine.callsOnce_advance
    callsOnce_advance rfl rfl
    (fun limit => Machine.performs_executeProgram limit program _)
    (fun limit => performs_executeProgram limit (Block.spells_of_parse hparse) _)
    (fun limit => .refl _ fun _ _ => ⟨rfl, rfl⟩)
    (fun hR => by rw [hR.2]; exact List.forall₂_refl _)
    (fun hR hleaves hleaves' => by rw [← hleaves, hR.1]; exact hleaves')

/-- A text with a comment, a loop in a loop and a loop that is skipped. -/
theorem recorded_agrees_with_flat_nested :
    Block.Balanced ",[.[-]~] again [<]".toList ∧
      ∃ program, Block.parse ",[.[-]~] again [<]" = .ok program ∧
        Agree Eq (fun tape ribbon => ribbon.Shows tape)
          (Machine.recorded .bytes Buffered.host program { input := [3] })
          (recorded .bytes Buffered.host ",[.[-]~] again [<]".toList { input := [3] }) := by
  have balanced : Block.Balanced ",[.[-]~] again [<]".toList := by decide
  exact ⟨balanced, recorded_agrees_with_flat .bytes Buffered.host balanced _⟩

end Flat
end TapeLang
