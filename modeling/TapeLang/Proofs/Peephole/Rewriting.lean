import Mathlib.Data.List.TakeWhile
import Mathlib.Logic.Relation
import TapeLang.Program.Peephole

/-!
# Rewriting, one pattern at a time

`Rewrites` is what the rules of the reduction say about a text: one pattern somewhere in it is
dropped.  Which neighbours are a pattern is a parameter; for the reduction they are those that undo
each other.  The reduction itself reads the text once and keeps a stack.  `rewrites_push` says that
a symbol pushed onto the stack is at most one rewriting of the text, and so the reduced text is
reached by rewritings (`rewrites_reduce`).
-/

namespace TapeLang.Peephole

open Relation

/-- One pattern of the text is dropped. -/
inductive Rewrites (cancels : Char → Char → Prop) : List Char → List Char → Prop
  /-- Neighbours that cancel each other. -/
  | cancel (front back : List Char) {first second : Char} (h : cancels first second) :
      Rewrites cancels (front ++ first :: second :: back) (front ++ back)
  /-- A loop without brackets inside behind a `]`. -/
  | deadLoop (front back : List Char) {inner : List Char} (h : ∀ c ∈ inner, isInner c) :
      Rewrites cancels (front ++ ']' :: '[' :: (inner ++ ']' :: back)) (front ++ ']' :: back)

theorem Rewrites.mono {cancels cancels' : Char → Char → Prop} {text text' : List Char}
    (h : Rewrites cancels text text')
    (hmono : ∀ first second, cancels first second → cancels' first second) :
    Rewrites cancels' text text' := by
  cases h with
  | cancel front back h => exact .cancel front back (hmono _ _ h)
  | deadLoop front back h => exact .deadLoop front back h

/-- The symbols kept below the inner ones on top. -/
theorem exists_of_dropWhile_isInner {kept rest : List Char} (h : kept.dropWhile isInner = rest) :
    ∃ inner, kept = inner ++ rest ∧ ∀ c ∈ inner, isInner c :=
  ⟨kept.takeWhile isInner, by rw [← h, List.takeWhile_append_dropWhile],
    fun _ hc => List.mem_takeWhile_imp hc⟩

/-- A bracket pushed onto the symbols kept drops the loop that it closes, if that loop is dead. -/
theorem rewrites_push_close (kept back : List Char) :
    ReflTransGen (Rewrites (undoes · ·)) (kept.reverse ++ ']' :: back)
      ((push kept ']').reverse ++ back) := by
  unfold push
  rw [if_pos rfl]
  split
  · next below hdrop =>
    -- Above the `]` there is a `[` and only inner symbols on the stack: the dead loop is all of it.
    obtain ⟨inner, rfl, hinner⟩ := exists_of_dropWhile_isInner hdrop
    have hrewrites : Rewrites (undoes · ·) _ _ := .deadLoop below.reverse back fun c hc =>
      hinner c (List.mem_reverse.mp hc)
    simpa using ReflTransGen.single hrewrites
  · rw [List.reverse_cons, List.append_assoc, List.singleton_append]

/-- One more symbol is at most one rewriting. -/
theorem rewrites_push (kept back : List Char) (c : Char) :
    ReflTransGen (Rewrites (undoes · ·)) (kept.reverse ++ c :: back)
      ((push kept c).reverse ++ back) := by
  by_cases hc : c = ']'
  · subst hc
    exact rewrites_push_close kept back
  unfold push
  rw [if_neg hc]
  cases kept with
  | nil => exact .refl
  | cons last below =>
    dsimp only
    -- The symbol undoes the last one kept, which is a rewriting, or is kept too, which is none.
    split
    · next hundoes =>
      rw [List.reverse_cons, List.append_assoc, List.singleton_append]
      exact .single (.cancel below.reverse back hundoes)
    · rw [List.reverse_cons (a := c), List.append_assoc, List.singleton_append]

theorem rewrites_foldl_push (kept cs : List Char) :
    ReflTransGen (Rewrites (undoes · ·)) (kept.reverse ++ cs) (cs.foldl push kept).reverse := by
  induction cs generalizing kept with
  | nil => rw [List.append_nil]; exact .refl
  | cons c cs ih => exact (rewrites_push kept cs c).trans (ih (push kept c))

/-- **The reduced text is reached by rewritings.** -/
theorem rewrites_reduce (text : String) :
    ReflTransGen (Rewrites (undoes · ·)) text.toList (reduce text).toList := by
  rw [reduce, String.toList_ofList]
  exact rewrites_foldl_push [] text.toList

end TapeLang.Peephole
