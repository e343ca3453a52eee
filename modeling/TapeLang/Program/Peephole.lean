/-!
# Peephole reduction

A text of symbols is reduced by two kinds of rules, until none applies:

* neighbours that undo each other, `<>`, `><`, `+-` and `-+`, are dropped;
* a loop without brackets inside that follows a `]` is dropped.  The selected cell is zero behind a
  `]`, so that such a loop is never entered.

Sweeps over the text apply them: a sweep drops one pair after the other wherever it stands, and then
the loops.  What it drops may bring a pattern together, and so sweeps go on until one of them makes
the text no shorter (`reduceBySweeps`).

The order in which the rules are applied does not matter, and one pass from left to right is enough:
the symbols kept so far form a stack to which no rule applies, and a new symbol can only complete a
pattern at the top (`reduce`).  This is the reduction that programs are built with.
-/

namespace TapeLang.Peephole

/-- The two symbols, one after the other, undo each other. -/
def undoes (first second : Char) : Bool :=
  (first == '<' && second == '>') || (first == '>' && second == '<') ||
    (first == '+' && second == '-') || (first == '-' && second == '+')

/-- A character that may stand in a loop without brackets inside. -/
def isInner (c : Char) : Bool := c != '[' && c != ']'

/-! ### One pass -/

/-- The symbols kept, last one first, after one more symbol. -/
def push (kept : List Char) (c : Char) : List Char :=
  if c = ']' then
    -- The loop that ends here is dead behind another one, which leaves a zero.
    match kept.dropWhile isInner with
    | '[' :: ']' :: below => ']' :: below
    | _ => c :: kept
  else
    match kept with
    | last :: below => if undoes last c then below else c :: kept
    | [] => [c]

/-- **The text reduced**: no rule applies to it any more. -/
def reduce (text : String) : String := String.ofList (text.toList.foldl push []).reverse

/-! ### Sweeps -/

/-- The pairs of symbols that undo each other, in the order in which a sweep drops them. -/
def pairs : List (Char × Char) := [('<', '>'), ('>', '<'), ('-', '+'), ('+', '-')]

/-- The text without a pair of symbols.  The pair is looked for from left to right, and the search
goes on behind it: two symbols that only meet when it is dropped stay. -/
def dropPair (first second : Char) : List Char → List Char
  | c :: d :: cs =>
    if c = first ∧ d = second then dropPair first second cs else c :: dropPair first second (d :: cs)
  | cs => cs

/-- What stands behind the dead loop in front of a text, if there is one.  The `]` before the loop
belongs to the front. -/
def behindDeadLoop? : List Char → Option (List Char)
  | ']' :: '[' :: cs =>
    match cs.dropWhile isInner with
    | ']' :: back => some back
    | _ => none
  | _ => none

theorem eq_of_behindDeadLoop? {cs back : List Char} (h : behindDeadLoop? cs = some back) :
    ∃ inner, (∀ c ∈ inner, isInner c) ∧ cs = ']' :: '[' :: (inner ++ ']' :: back) := by
  unfold behindDeadLoop? at h
  split at h
  · next cs =>
    split at h
    · next back' hdrop =>
      obtain rfl := Option.some.inj h
      refine ⟨cs.takeWhile isInner, fun c hc => List.all_eq_true.mp List.all_takeWhile c hc, ?_⟩
      rw [← hdrop, List.takeWhile_append_dropWhile]
    · cases h
  · cases h

/-- The text without its dead loops.  Again the search goes on behind what is dropped: the `]` in
front of a dead loop stays and is the front of no other one. -/
def dropDeadLoops : List Char → List Char
  | [] => []
  | c :: cs =>
    match _found : behindDeadLoop? (c :: cs) with
    | some back => ']' :: dropDeadLoops back
    | none => c :: dropDeadLoops cs
termination_by cs => cs.length
decreasing_by
  · obtain ⟨inner, -, heq⟩ := eq_of_behindDeadLoop? _found
    rw [heq]
    simp only [List.length_cons, List.length_append]
    omega
  · simp

/-- The text without some pairs, which are dropped one after the other. -/
def dropPairs (pairs : List (Char × Char)) (text : List Char) : List Char :=
  pairs.foldl (fun text pair => dropPair pair.1 pair.2 text) text

/-- One sweep: all pairs, then the dead loops. -/
def sweep (text : List Char) : List Char := dropDeadLoops (dropPairs pairs text)

/-! A sweep drops characters only, and so sweeps come to an end. -/

theorem dropPair_sublist (first second : Char) (text : List Char) :
    (dropPair first second text).Sublist text := by
  fun_induction dropPair first second text with
  | case1 c d cs _ ih => exact (ih.cons d).cons c
  | case2 c d cs _ ih => exact ih.cons_cons c
  | case3 cs => exact List.Sublist.refl cs

theorem dropPairs_sublist (pairs : List (Char × Char)) (text : List Char) :
    (dropPairs pairs text).Sublist text := by
  induction pairs generalizing text with
  | nil => exact List.Sublist.refl text
  | cons pair pairs ih => exact (ih _).trans (dropPair_sublist pair.1 pair.2 text)

theorem dropDeadLoops_sublist (text : List Char) : (dropDeadLoops text).Sublist text := by
  fun_induction dropDeadLoops text with
  | case1 => exact List.Sublist.refl []
  | case2 c cs back found ih =>
    obtain ⟨inner, -, heq⟩ := eq_of_behindDeadLoop? found
    rw [heq]
    exact ((ih.cons ']').trans (List.sublist_append_right inner _)).cons '[' |>.cons_cons ']'
  | case3 c cs _ ih => exact ih.cons_cons c

theorem sweep_sublist (text : List Char) : (sweep text).Sublist text :=
  (dropDeadLoops_sublist _).trans (dropPairs_sublist pairs text)

theorem utf8ByteSize_ofList_cons (c : Char) (cs : List Char) :
    (String.ofList (c :: cs)).utf8ByteSize = c.utf8Size + (String.ofList cs).utf8ByteSize := by
  rw [← List.singleton_append, String.ofList_append, String.utf8ByteSize_append,
    ← String.singleton_eq_ofList, String.utf8ByteSize_singleton]

/-- Characters that are dropped make a text shorter, in bytes, too. -/
theorem utf8ByteSize_le_of_sublist {cs ds : List Char} (h : cs.Sublist ds) :
    (String.ofList cs).utf8ByteSize ≤ (String.ofList ds).utf8ByteSize := by
  induction h with
  | slnil => exact Nat.le_refl _
  | cons c _ ih =>
    rw [utf8ByteSize_ofList_cons]
    exact Nat.le_add_left_of_le ih
  | cons_cons c _ ih =>
    rw [utf8ByteSize_ofList_cons, utf8ByteSize_ofList_cons]
    exact Nat.add_le_add_left ih _

/-- **The text swept** until a sweep leaves as many bytes as there were. -/
def reduceBySweeps (text : String) : String :=
  let swept := String.ofList (sweep text.toList)
  if _stable : swept.utf8ByteSize = text.utf8ByteSize then swept else reduceBySweeps swept
termination_by text.utf8ByteSize
decreasing_by
  have hle : swept.utf8ByteSize ≤ (String.ofList text.toList).utf8ByteSize :=
    utf8ByteSize_le_of_sublist (sweep_sublist text.toList)
  rw [String.ofList_toList] at hle
  exact Nat.lt_of_le_of_ne hle _stable

end TapeLang.Peephole
