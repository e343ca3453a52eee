import TapeLang.Proofs.Peephole.NormalForm

/-!
# Sweeps reach the normal form

A text may be reduced by one pass that keeps a stack (`reduce`) or by sweeps that are repeated until
the text gets no shorter (`reduceBySweeps`).  What a sweep does is a chain of rewritings
(`rewritings_sweep`), so that it never leads to another normal form.  A sweep that leaves as many
bytes as there were has dropped nothing, and then there was nothing to drop: each of its parts finds
its pattern wherever it stands (`not_infix_of_dropPair_eq`, `not_infix_of_dropDeadLoops_eq`).  The
text is normal, and the sweeps may stop.

Main statement: `reduceBySweeps_eq_reduce`.
-/

namespace TapeLang.Peephole

open Relation

variable {text : List Char}

/-! ### A sweep rewrites -/

theorem undoes_of_mem_pairs {pair : Char × Char} (h : pair ∈ pairs) : undoes pair.1 pair.2 := by
  simp only [pairs, List.mem_cons, List.not_mem_nil, or_false] at h
  rcases h with rfl | rfl | rfl | rfl <;> rfl

theorem mem_pairs_of_undoes {first second : Char} (h : undoes first second) :
    (first, second) ∈ pairs := by
  simp only [undoes, Bool.or_eq_true, Bool.and_eq_true, beq_iff_eq] at h
  rcases h with ((⟨rfl, rfl⟩ | ⟨rfl, rfl⟩) | ⟨rfl, rfl⟩) | ⟨rfl, rfl⟩ <;> simp [pairs]

/-- What follows a first symbol is rewritten behind it. -/
theorem rewritings_cons {cancels : Char → Char → Prop} {text' : List Char}
    (h : ReflTransGen (Rewrites cancels) text text') (c : Char) :
    ReflTransGen (Rewrites cancels) (c :: text) (c :: text') := by
  have happend := rewritings_append h [c] []
  rwa [List.append_nil, List.append_nil] at happend

theorem rewritings_dropPair {first second : Char} (hundoes : undoes first second)
    (text : List Char) :
    ReflTransGen (Rewrites (undoes · ·)) text (dropPair first second text) := by
  fun_induction dropPair first second text with
  | case1 c d cs hpair ih =>
    obtain ⟨rfl, rfl⟩ := hpair
    exact ih.head (.cancel [] cs hundoes)
  | case2 c d cs _ ih => exact rewritings_cons ih c
  | case3 cs => exact .refl

theorem rewritings_dropPairs {pairs : List (Char × Char)}
    (hundo : ∀ pair ∈ pairs, undoes pair.1 pair.2) (text : List Char) :
    ReflTransGen (Rewrites (undoes · ·)) text (dropPairs pairs text) := by
  induction pairs generalizing text with
  | nil => exact .refl
  | cons pair pairs ih =>
    obtain ⟨hpair, hpairs⟩ := List.forall_mem_cons.mp hundo
    exact (rewritings_dropPair hpair text).trans (ih hpairs _)

theorem rewritings_dropDeadLoops (text : List Char) :
    ReflTransGen (Rewrites (undoes · ·)) text (dropDeadLoops text) := by
  fun_induction dropDeadLoops text with
  | case1 => exact .refl
  | case2 c cs back found ih =>
    obtain ⟨inner, hinner, heq⟩ := eq_of_behindDeadLoop? found
    have hrewrites : Rewrites (undoes · ·) (c :: cs) (']' :: back) :=
      heq ▸ .deadLoop [] back hinner
    exact (rewritings_cons ih ']').head hrewrites
  | case3 c cs _ ih => exact rewritings_cons ih c

/-- A sweep is a chain of rewritings. -/
theorem rewritings_sweep (text : List Char) :
    ReflTransGen (Rewrites (undoes · ·)) text (sweep text) :=
  (rewritings_dropPairs (fun _ => undoes_of_mem_pairs) text).trans (rewritings_dropDeadLoops _)

/-! ### A sweep that drops nothing -/

theorem not_infix_of_dropPair_eq {first second : Char} (h : dropPair first second text = text) :
    ¬ [first, second] <:+: text := by
  fun_induction dropPair first second text with
  | case1 c d cs _ ih =>
    -- A pair was dropped, and nothing takes its place.
    have hlength := (dropPair_sublist first second cs).length_le
    rw [h] at hlength
    simp only [List.length_cons] at hlength
    omega
  | case2 c d cs hne ih =>
    intro hinfix
    obtain hprefix | hinfix := List.infix_cons_iff.mp hinfix
    · have hpair : c = first ∧ d = second := by simpa [eq_comm] using hprefix
      exact hne hpair
    · exact ih (List.tail_eq_of_cons_eq h) hinfix
  | case3 cs hshort =>
    -- There are not two symbols in the text.
    rintro ⟨front, back, rfl⟩
    cases front with
    | nil => exact hshort first second back rfl
    | cons c front => cases front <;> exact hshort _ _ _ rfl

/-- A text that loses no pair of several one after the other holds none of them. -/
theorem not_infix_of_dropPairs_eq {pairs : List (Char × Char)} (h : dropPairs pairs text = text) :
    ∀ pair ∈ pairs, ¬ [pair.1, pair.2] <:+: text := by
  induction pairs with
  | nil => simp
  | cons pair pairs ih =>
    have hfirst := dropPair_sublist pair.1 pair.2 text
    have hothers := dropPairs_sublist pairs (dropPair pair.1 pair.2 text)
    change dropPairs pairs (dropPair pair.1 pair.2 text) = text at h
    -- All of the text comes out behind the other pairs, and so the first one has left all of it.
    rw [h] at hothers
    have hkept : dropPair pair.1 pair.2 text = text := hfirst.antisymm hothers
    rw [hkept] at h
    exact List.forall_mem_cons.mpr ⟨not_infix_of_dropPair_eq hkept, ih h⟩

theorem behindDeadLoop?_ne_none {inner back : List Char} (hinner : ∀ c ∈ inner, isInner c) :
    behindDeadLoop? (']' :: '[' :: (inner ++ ']' :: back)) ≠ none := by
  have hdrop : (inner ++ ']' :: back).dropWhile isInner = ']' :: back := by
    rw [List.dropWhile_append_of_pos hinner]
    simp [isInner]
  simp [behindDeadLoop?, hdrop]

theorem not_infix_of_dropDeadLoops_eq (h : dropDeadLoops text = text) {inner : List Char}
    (hinner : ∀ c ∈ inner, isInner c) : ¬ ']' :: '[' :: (inner ++ [']']) <:+: text := by
  fun_induction dropDeadLoops text with
  | case1 => simp
  | case2 c cs back found ih =>
    -- A loop was dropped, and nothing takes its place.
    obtain ⟨inner', -, heq⟩ := eq_of_behindDeadLoop? found
    have hlength := (dropDeadLoops_sublist back).length_le
    rw [heq] at h
    rw [List.tail_eq_of_cons_eq h] at hlength
    simp only [List.length_cons, List.length_append] at hlength
    omega
  | case3 c cs hnone ih =>
    intro hinfix
    obtain hprefix | hinfix := List.infix_cons_iff.mp hinfix
    · obtain ⟨back, heq⟩ := hprefix
      have hloop : ']' :: '[' :: (inner ++ ']' :: back) = c :: cs := by simpa using heq
      exact behindDeadLoop?_ne_none hinner (hloop ▸ hnone)
    · exact ih (List.tail_eq_of_cons_eq h) hinfix

/-- A text that a sweep leaves as it is is normal. -/
theorem isNormal_of_sweep_eq (h : sweep text = text) : IsNormal text := by
  have hloops := dropDeadLoops_sublist (dropPairs pairs text)
  rw [sweep] at h
  rw [h] at hloops
  have hpairs : dropPairs pairs text = text := (dropPairs_sublist pairs text).antisymm hloops
  rw [hpairs] at h
  refine isNormal_iff.mpr ⟨fun first second hundoes => ?_, fun inner hinner => ?_⟩
  · exact not_infix_of_dropPairs_eq hpairs (first, second) (mem_pairs_of_undoes hundoes)
  · exact not_infix_of_dropDeadLoops_eq h hinner

/-- As many bytes are left only if all characters are. -/
theorem eq_of_sublist_of_utf8ByteSize_eq {cs ds : List Char} (h : cs.Sublist ds)
    (hsize : (String.ofList cs).utf8ByteSize = (String.ofList ds).utf8ByteSize) : cs = ds := by
  induction h with
  | slnil => rfl
  | @cons cs ds c hrest _ =>
    -- The character that is missing takes a byte at least.
    have hle := utf8ByteSize_le_of_sublist hrest
    have hpos : 0 < c.utf8Size := Char.utf8Size_pos c
    rw [utf8ByteSize_ofList_cons] at hsize
    omega
  | @cons_cons cs ds c _ ih =>
    rw [utf8ByteSize_ofList_cons, utf8ByteSize_ofList_cons] at hsize
    rw [ih (Nat.add_left_cancel hsize)]

/-! ### Sweep after sweep -/

/-- **Sweeps reduce a text to its normal form**, and so to the text that one pass reduces it to. -/
theorem reduceBySweeps_eq_reduce (text : String) : reduceBySweeps text = reduce text := by
  fun_induction reduceBySweeps text with
  | case1 text swept hstable =>
    -- The last sweep has changed nothing, and what it was given is normal.
    have hsublist : (sweep text.toList).Sublist text.toList := sweep_sublist text.toList
    have hkept : sweep text.toList = text.toList := by
      refine eq_of_sublist_of_utf8ByteSize_eq hsublist ?_
      rw [String.ofList_toList]
      exact hstable
    have hswept : swept = text := by
      rw [← String.ofList_toList (s := text), ← hkept]
    rw [hswept, reduce_of_isNormal (isNormal_of_sweep_eq hkept)]
  | case2 text swept _ ih =>
    -- A sweep rewrites, and what is rewritten has the same normal form.
    rw [ih, ← reduce_eq_of_rewritings (rewritings_sweep text.toList), String.ofList_toList]

/-- The first sweep brings a pair together, and the second one a dead loop behind a bracket. -/
example : reduceBySweeps "[-]+<>-[.][,]>" = "[-]>" := by
  rw [reduceBySweeps_eq_reduce]
  rfl

end TapeLang.Peephole
