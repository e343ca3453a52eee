import Mathlib.Data.List.Chain
import Mathlib.Order.WellFounded
import TapeLang.Proofs.Peephole.Rewriting

/-!
# The normal form of a text

A text may be rewritten in many ways: any of its patterns may be dropped, and others may show then.
This module says that the way does not matter.  Every rewriting ends, since each step drops
characters (`wellFounded_rewrites`).  A step does not change what the text is reduced to
(`reduce_eq_of_rewrites`): a pair that is pushed onto the symbols kept leaves them as they were
(`push_push_of_undoes`), and so does a dead loop, but for the `]` in front of it
(`foldl_push_deadLoop`).  A text to which no rule applies is reduced already.

Main statement: the reduced text is the one normal form of a text (`isNormalForm_reduce`).  It holds
no pattern, it is left over from the text, and a text may be reduced in parts.
-/

namespace TapeLang.Peephole

open Relation

variable {cancels : Char → Char → Prop} {text text' : List Char}

/-! ### Rewriting ends -/

/-- A rewriting drops characters and keeps the others in order. -/
theorem Rewrites.sublist (h : Rewrites cancels text text') : text'.Sublist text := by
  cases h with
  | @cancel front back first second _ =>
    have hback : back.Sublist (first :: second :: back) :=
      (List.sublist_cons_self second back).cons first
    exact hback.append_left front
  | @deadLoop front back inner _ =>
    have hback : (']' :: back).Sublist ('[' :: (inner ++ ']' :: back)) :=
      (List.sublist_append_right inner _).cons '['
    exact (hback.cons ']').append_left front

theorem Rewrites.length_lt (h : Rewrites cancels text text') : text'.length < text.length := by
  cases h with
  | cancel => simp only [List.length_append, List.length_cons]; omega
  | deadLoop => simp only [List.length_append, List.length_cons]; omega

/-- **Rewriting ends**, whatever is dropped first. -/
theorem wellFounded_rewrites (cancels : Char → Char → Prop) :
    WellFounded fun later earlier => Rewrites cancels earlier later :=
  Subrelation.wf (fun h => Rewrites.length_lt h) (InvImage.wf List.length Nat.lt_wfRel.wf)

theorem sublist_of_rewritings (h : ReflTransGen (Rewrites cancels) text text') :
    text'.Sublist text := by
  induction h with
  | refl => exact List.Sublist.refl text
  | tail _ hstep ih => exact hstep.sublist.trans ih

/-! ### Rewriting a part of a text -/

theorem Rewrites.append (h : Rewrites cancels text text') (front back : List Char) :
    Rewrites cancels (front ++ text ++ back) (front ++ text' ++ back) := by
  cases h with
  | cancel front' back' h => simpa using Rewrites.cancel (front ++ front') (back' ++ back) h
  | deadLoop front' back' h => simpa using Rewrites.deadLoop (front ++ front') (back' ++ back) h

theorem rewritings_append (h : ReflTransGen (Rewrites cancels) text text')
    (front back : List Char) :
    ReflTransGen (Rewrites cancels) (front ++ text ++ back) (front ++ text' ++ back) :=
  h.lift (fun text => front ++ text ++ back) fun _ _ hstep => hstep.append front back

/-- The parts of a text are rewritten side by side. -/
theorem rewritings_append_append {more more' : List Char}
    (h : ReflTransGen (Rewrites cancels) text text')
    (hmore : ReflTransGen (Rewrites cancels) more more') :
    ReflTransGen (Rewrites cancels) (text ++ more) (text' ++ more') := by
  have hfirst := rewritings_append h [] more
  have hsecond := rewritings_append hmore text' []
  simp only [List.nil_append, List.append_nil] at hfirst hsecond
  exact hfirst.trans hsecond

/-! ### The symbols kept -/

/-- No symbol kept undoes the one kept before it. -/
def NoneUndone (kept : List Char) : Prop :=
  kept.IsChain fun later earlier => ¬ undoes earlier later

theorem undoes_symm {first second : Char} (h : undoes first second) : undoes second first := by
  simp only [undoes, Bool.or_eq_true, Bool.and_eq_true, beq_iff_eq] at h ⊢
  tauto

/-- A symbol is undone by one other symbol only. -/
theorem eq_of_undoes {first second third : Char} (h : undoes first second)
    (h' : undoes second third) : first = third := by
  simp only [undoes, Bool.or_eq_true, Bool.and_eq_true, beq_iff_eq] at h h'
  rcases h with ((⟨rfl, rfl⟩ | ⟨rfl, rfl⟩) | ⟨rfl, rfl⟩) | ⟨rfl, rfl⟩ <;> simp_all

theorem not_undoes_close (first : Char) : ¬ undoes first ']' := by
  simp [undoes]

theorem ne_close_of_undoes {first second : Char} (h : undoes first second) : first ≠ ']' := by
  rintro rfl
  simp [undoes] at h

theorem push_of_ne {c : Char} (hc : c ≠ ']') (last : Char) (below : List Char) :
    push (last :: below) c = if undoes last c then below else c :: last :: below := by
  simp [push, hc]

theorem push_nil (c : Char) : push [] c = [c] := by
  by_cases hc : c = ']' <;> simp [push, hc]

theorem noneUndone_push {kept : List Char} (h : NoneUndone kept) (c : Char) :
    NoneUndone (push kept c) := by
  -- A `]` drops the dead loop that it ends, which leaves a part of what was kept, or it is kept. Any
  -- other symbol is kept, or takes the last one with it.
  by_cases hc : c = ']'
  · subst hc
    unfold push
    rw [if_pos rfl]
    split
    · next below hdrop =>
      obtain ⟨inner, rfl, -⟩ := exists_of_dropWhile_isInner hdrop
      exact h.suffix ⟨inner ++ ['['], by simp⟩
    · exact List.isChain_cons.mpr ⟨fun earlier _ => not_undoes_close earlier, h⟩
  cases kept with
  | nil =>
    rw [push_nil]
    exact .singleton c
  | cons last below =>
    rw [push_of_ne hc]
    split
    · exact h.of_cons
    · next hundoes => exact .cons_cons hundoes h

theorem noneUndone_foldl_push {kept : List Char} (h : NoneUndone kept) (cs : List Char) :
    NoneUndone (cs.foldl push kept) := by
  induction cs generalizing kept with
  | nil => exact h
  | cons c cs ih => exact ih (noneUndone_push h c)

/-- A pair comes to nothing: the second symbol takes back what the first one does to the symbols
kept. -/
theorem push_push_of_undoes {kept : List Char} (h : NoneUndone kept) {first second : Char}
    (hundoes : undoes first second) : push (push kept first) second = kept := by
  -- Brackets undo nothing, so neither symbol is the one that drops a loop.
  have hfirst : first ≠ ']' := ne_close_of_undoes hundoes
  have hsecond : second ≠ ']' := ne_close_of_undoes (undoes_symm hundoes)
  cases kept with
  | nil => rw [push_nil, push_of_ne hsecond, if_pos hundoes]
  | cons last below =>
    rw [push_of_ne hfirst]
    by_cases hlast : undoes last first
    · -- The last symbol is dropped with the first one of the pair, and the second one is the same.
      obtain rfl : last = second := eq_of_undoes hlast hundoes
      rw [if_pos hlast]
      cases below with
      | nil => exact push_nil last
      | cons earlier below =>
        -- The symbol on top now was not undone by the one above it, by the invariant.
        have hearlier : ¬ undoes earlier last := (List.isChain_cons_cons.mp h).1
        rw [push_of_ne hsecond, if_neg hearlier]
    · rw [if_neg hlast, push_of_ne hsecond, if_pos hundoes]

theorem exists_push_close (kept : List Char) : ∃ below, push kept ']' = ']' :: below := by
  unfold push
  rw [if_pos rfl]
  split
  · exact ⟨_, rfl⟩
  · exact ⟨kept, rfl⟩

/-- A text without brackets stays above the bracket on top of the symbols kept. -/
theorem exists_foldl_push_inner {inner : List Char} (hinner : ∀ c ∈ inner, isInner c)
    {above : List Char} (habove : ∀ c ∈ above, isInner c) (below : List Char) :
    ∃ above', (∀ c ∈ above', isInner c) ∧
      inner.foldl push (above ++ '[' :: below) = above' ++ '[' :: below := by
  -- The text may change what stands above the bracket with each symbol, so that varies.
  induction inner generalizing above with
  | nil => exact ⟨above, habove, rfl⟩
  | cons c inner ih =>
    have hc : isInner c := hinner c List.mem_cons_self
    have hrest : ∀ c ∈ inner, isInner c := fun c hc => hinner c (List.mem_cons_of_mem _ hc)
    obtain ⟨hopen, hclose⟩ : c ≠ '[' ∧ c ≠ ']' := by simpa [isInner] using hc
    rw [List.foldl_cons]
    cases above with
    | nil =>
      have hpush : push ('[' :: below) c = [c] ++ '[' :: below := by
        rw [push_of_ne hclose, if_neg (by simp [undoes])]
        rfl
      rw [List.nil_append, hpush]
      exact ih hrest (by simpa using hc)
    | cons last above =>
      have habove' : ∀ c ∈ above, isInner c := fun c hc => habove c (List.mem_cons_of_mem _ hc)
      rw [List.cons_append, push_of_ne hclose]
      -- The symbol drops the last one above the bracket or comes on top; neither reaches the
      -- bracket.
      split
      · exact ih hrest habove'
      · rw [← List.cons_append, ← List.cons_append]
        refine ih hrest fun d hd => ?_
        rcases List.mem_cons.mp hd with rfl | hd
        · exact hc
        · exact habove d hd

/-- A dead loop comes to nothing behind the `]` before it. -/
theorem foldl_push_deadLoop (kept : List Char) {inner : List Char}
    (hinner : ∀ c ∈ inner, isInner c) :
    (']' :: '[' :: (inner ++ [']'])).foldl push kept = push kept ']' := by
  -- The `[` comes on top of the `]`. The inner text stays above both, and the next `]` finds `][`
  -- under it and drops all of that.
  obtain ⟨below, hbelow⟩ := exists_push_close kept
  have hopen : push (']' :: below) '[' = [] ++ '[' :: ']' :: below := by
    rw [push_of_ne (by decide), if_neg (by simp [undoes])]
    rfl
  have hnone : ∀ c ∈ ([] : List Char), isInner c := by simp
  obtain ⟨above, habove, hfold⟩ := exists_foldl_push_inner hinner hnone (']' :: below)
  have hdrop : (above ++ '[' :: ']' :: below).dropWhile isInner = '[' :: ']' :: below := by
    rw [List.dropWhile_append_of_pos habove]
    simp [isInner]
  have hclose : push (above ++ '[' :: ']' :: below) ']' = ']' :: below := by
    unfold push
    rw [if_pos rfl, hdrop]
    rfl
  rw [List.foldl_cons, List.foldl_cons, List.foldl_append, hbelow, hopen, hfold]
  exact hclose

/-- **A rewriting does not change what a text is reduced to.** -/
theorem reduce_eq_of_rewrites {text text' : String}
    (h : Rewrites (undoes · ·) text.toList text'.toList) : reduce text = reduce text' := by
  have hfold : text.toList.foldl push [] = text'.toList.foldl push [] := by
    generalize text.toList = cs at h ⊢
    generalize text'.toList = cs' at h ⊢
    cases h with
    | @cancel front back first second hundoes =>
      -- What is kept in front has no pair in it, as the lemma on pairs asks for.
      have hfront : NoneUndone (front.foldl push []) := noneUndone_foldl_push .nil front
      simp only [List.foldl_append, List.foldl_cons]
      rw [push_push_of_undoes hfront hundoes]
    | @deadLoop front back inner hinner =>
      -- The `]` before the loop belongs to what comes to nothing, and is put back by it.
      have hsplit : front ++ ']' :: '[' :: (inner ++ ']' :: back) =
          front ++ (']' :: '[' :: (inner ++ [']']) ++ back) := by simp
      rw [hsplit, List.foldl_append, List.foldl_append, foldl_push_deadLoop _ hinner,
        List.foldl_append, List.foldl_cons]
  rw [reduce, reduce, hfold]

theorem reduce_eq_of_rewritings {cs cs' : List Char}
    (h : ReflTransGen (Rewrites (undoes · ·)) cs cs') :
    reduce (String.ofList cs) = reduce (String.ofList cs') := by
  induction h with
  | refl => rfl
  | @tail middle last _ hstep ih =>
    rw [ih]
    apply reduce_eq_of_rewrites
    simpa using hstep

/-! ### Normal forms -/

/-- No rule applies to the text. -/
def IsNormal (text : List Char) : Prop := ∀ text', ¬ Rewrites (undoes · ·) text text'

/-- A text that holds none of the patterns, and only such a text, is normal. -/
theorem isNormal_iff {text : List Char} :
    IsNormal text ↔ (∀ first second, undoes first second → ¬ [first, second] <:+: text) ∧
      ∀ inner, (∀ c ∈ inner, isInner c) → ¬ ']' :: '[' :: (inner ++ [']']) <:+: text := by
  constructor
  · intro hnormal
    constructor
    · rintro first second hundoes ⟨front, back, rfl⟩
      have hrewrites : Rewrites (undoes · ·) (front ++ first :: second :: back) (front ++ back) :=
        .cancel front back hundoes
      apply hnormal (front ++ back)
      simpa using hrewrites
    · rintro inner hinner ⟨front, back, rfl⟩
      have hrewrites : Rewrites (undoes · ·) (front ++ ']' :: '[' :: (inner ++ ']' :: back))
          (front ++ ']' :: back) := .deadLoop front back hinner
      apply hnormal (front ++ ']' :: back)
      simpa using hrewrites
  · -- Each way to rewrite the text would have found one of the patterns.
    rintro ⟨hpairs, hloops⟩ text' h
    cases h with
    | @cancel front back first second hundoes =>
      exact hpairs first second hundoes ⟨front, back, by simp⟩
    | @deadLoop front back inner hinner =>
      exact hloops inner hinner ⟨front, back, by simp⟩

theorem exists_isNormal (text : List Char) :
    ∃ text', ReflTransGen (Rewrites (undoes · ·)) text text' ∧ IsNormal text' := by
  induction text using (wellFounded_rewrites (undoes · ·)).induction with
  | _ text ih =>
    by_cases hnormal : IsNormal text
    · exact ⟨text, .refl, hnormal⟩
    · unfold IsNormal at hnormal
      push Not at hnormal
      obtain ⟨next, hnext⟩ := hnormal
      obtain ⟨text', hrewritings, hnormal'⟩ := ih next hnext
      exact ⟨text', hrewritings.head hnext, hnormal'⟩

/-- A normal text is reduced already. -/
theorem reduce_of_isNormal {text : String} (h : IsNormal text.toList) : reduce text = text := by
  have hrewritings := rewrites_reduce text
  rcases hrewritings.cases_head with heq | ⟨next, hnext, -⟩
  · exact String.toList_inj.mp heq.symm
  · exact absurd hnext (h next)

/-- A normal text that is reached is the reduced text. -/
theorem eq_reduce_of_isNormal {text : String} {text' : List Char}
    (h : ReflTransGen (Rewrites (undoes · ·)) text.toList text') (hnormal : IsNormal text') :
    text' = (reduce text).toList := by
  have hnormal' : IsNormal (String.ofList text').toList := by simpa using hnormal
  have hreduce : reduce text = String.ofList text' := by
    rw [← reduce_of_isNormal hnormal', ← reduce_eq_of_rewritings h, String.ofList_toList]
  rw [hreduce, String.toList_ofList]

theorem isNormal_reduce (text : String) : IsNormal (reduce text).toList := by
  obtain ⟨text', hrewritings, hnormal⟩ := exists_isNormal text.toList
  rw [← eq_reduce_of_isNormal hrewritings hnormal]
  exact hnormal

/-- The text `reduced` is the normal form of `text`, in whatever order the rules are applied. -/
structure IsNormalForm (text reduced : List Char) : Prop where
  /-- Every rewriting of the text ends. -/
  ends : Acc (fun later earlier => Rewrites (undoes · ·) earlier later) text
  reached : ReflTransGen (Rewrites (undoes · ·)) text reduced
  normal : IsNormal reduced
  /-- No other text that is reached is normal. -/
  unique : ∀ text', ReflTransGen (Rewrites (undoes · ·)) text text' → IsNormal text' →
    text' = reduced

/-- **Reduced texts are put together** from reduced parts. -/
theorem reduce_append (text more : String) :
    reduce (text ++ more) = reduce (reduce text ++ reduce more) := by
  have hparts := rewritings_append_append (rewrites_reduce text) (rewrites_reduce more)
  have hreduce := reduce_eq_of_rewritings hparts
  rw [← String.toList_append, ← String.toList_append] at hreduce
  simpa only [String.ofList_toList] using hreduce

/-- **The reduced text is the normal form**: every rewriting ends, and in it if it goes on until no
rule applies.  The reduced text holds none of the patterns.  It is what is left of the text, and
never longer.  Reducing it again changes nothing, and parts of a text may be reduced first. -/
theorem isNormalForm_reduce (text : String) :
    IsNormalForm text.toList (reduce text).toList ∧
      (∀ pair ∈ ["<>", "><", "-+", "+-"], ¬ pair.toList <:+: (reduce text).toList) ∧
      (∀ inner : String, '[' ∉ inner.toList → ']' ∉ inner.toList →
        ¬ ("][" ++ inner ++ "]").toList <:+: (reduce text).toList) ∧
      (reduce text).toList.Sublist text.toList ∧
      (reduce text).utf8ByteSize ≤ text.utf8ByteSize ∧
      reduce (reduce text) = reduce text ∧
      ∀ more, reduce (text ++ more) = reduce (reduce text ++ reduce more) := by
  have hreached := rewrites_reduce text
  have hnormal := isNormal_reduce text
  obtain ⟨hpairs, hloops⟩ := isNormal_iff.mp hnormal
  have hsublist := sublist_of_rewritings hreached
  have hform : IsNormalForm text.toList (reduce text).toList :=
    ⟨(wellFounded_rewrites _).apply _, hreached, hnormal, fun _ => eq_reduce_of_isNormal⟩
  refine ⟨hform, ?_, ?_, hsublist, ?_, reduce_of_isNormal hnormal, reduce_append text⟩
  · intro pair hpair
    simp only [List.mem_cons, List.not_mem_nil, or_false] at hpair
    rcases hpair with rfl | rfl | rfl | rfl
    · exact hpairs '<' '>' rfl
    · exact hpairs '>' '<' rfl
    · exact hpairs '-' '+' rfl
    · exact hpairs '+' '-' rfl
  · intro inner hopen hclose
    have hinner : ∀ c ∈ inner.toList, isInner c := by
      intro c hc
      have hne : c ≠ '[' ∧ c ≠ ']' := ⟨fun h => hopen (h ▸ hc), fun h => hclose (h ▸ hc)⟩
      simpa [isInner] using hne
    simpa using hloops inner.toList hinner
  · have hsize := utf8ByteSize_le_of_sublist hsublist
    rwa [String.ofList_toList, String.ofList_toList] at hsize

end TapeLang.Peephole
