import Mathlib.Data.List.Forall2
import TapeLang.Proofs.Token.Lexemes
import TapeLang.Template

/-!
# Templates and their holes

A text is cut at its holes (`Cut`): the first hole from the left, the next one in what stands behind
it, and so on, until there is none left.  There is one way to do so (`exists_cut`, `Cut.unique`),
and the pieces of the text are read off it (`pieces_of_cut`).

A name in a scope has a value by a constant of that name, or else by the argument whose position it
is (`Scope.Gives`).  If all holes have values, the values stand in the place of the holes; if not,
the first hole without a value is the error.

Main statement: `fill_follows_cut`.
-/

namespace TapeLang

/-! ### The value of a name -/

/-- The name is bound to the value: by the constant of that name, or, if there is none, as the
position of an argument. -/
def Scope.Binds (scope : Scope) (name value : String) : Prop :=
  scope.constants.get? name = some value ∨
    scope.constants.get? name = none ∧ ∃ i : Nat, name = i.repr ∧ scope.args[i]? = some value

/-- The name has the value: an empty one is none. -/
def Scope.Gives (scope : Scope) (name value : String) : Prop :=
  scope.Binds name value ∧ value ≠ ""

theorem Scope.get?_eq_some_iff {scope : Scope} {name value : String} :
    scope.get? name = some value ↔ scope.Gives name value := by
  have hpositional : scope.positional? name = some value ↔
      ∃ i : Nat, name = i.repr ∧ scope.args[i]? = some value := by
    simp only [positional?, Option.bind_eq_some_iff, Decimal.canonical?_eq_some_iff]
  have hbinding : scope.binding? name = some value ↔ scope.Binds name value := by
    rw [binding?, Option.or_eq_some_iff, hpositional, Binds]
  rw [get?, Option.filter_eq_some_iff, hbinding, Gives]
  simp

namespace Template

/-! ### The cut -/

/-- A text that starts with a hole: a word between two slashes. -/
def StartsHole (cs : List Char) : Prop :=
  ∃ name rest, name ≠ [] ∧ (∀ c ∈ name, Text.isWordChar c = true) ∧
    cs = '/' :: (name ++ '/' :: rest)

/-- A hole of a text, and what stands in front of it, from behind the hole before it. -/
structure Hole where
  front : List Char
  name : List Char

/-- The text is cut at its holes, each one being the first from where the last one ended. -/
inductive Cut : List Char → List Hole → List Char → Prop
  | last {cs : List Char} (h : ∀ i, ¬StartsHole (cs.drop i)) : Cut cs [] cs
  | hole {front name rest last : List Char} {holes : List Hole} (hne : name ≠ [])
      (hname : ∀ c ∈ name, Text.isWordChar c = true)
      (hfirst : ∀ i < front.length, ¬StartsHole ((front ++ '/' :: (name ++ '/' :: rest)).drop i))
      (hrest : Cut rest holes last) :
      Cut (front ++ '/' :: (name ++ '/' :: rest)) (⟨front, name⟩ :: holes) last

/-- The text with values in the place of its holes. -/
def filled : List Hole → List String → List Char → List Char
  | hole :: holes, value :: values, last => hole.front ++ (value.toList ++ filled holes values last)
  | _, _, last => last

variable {scope : Scope} {site : String} {cs front rest last name : List Char} {holes : List Hole}
  {c : Char}

theorem hole?_eq_some_iff : hole? cs = some (name, rest) ↔
    name ≠ [] ∧ (∀ c ∈ name, Text.isWordChar c = true) ∧ cs = '/' :: (name ++ '/' :: rest) := by
  constructor
  · intro h
    unfold hole? at h
    split at h
    · next behind =>
      split at h
      · next d ds after htake hdrop =>
        obtain ⟨rfl, rfl⟩ : d :: ds = name ∧ after = rest := by simpa using h
        have hbehind := List.takeWhile_append_dropWhile (p := Text.isWordChar) (l := behind)
        rw [htake, hdrop] at hbehind
        refine ⟨List.cons_ne_nil d ds, fun c hc => ?_, by rw [hbehind]⟩
        rw [← htake] at hc
        exact List.mem_takeWhile_imp hc
      · cases h
    · cases h
  · rintro ⟨hne, hname, rfl⟩
    -- The closing slash ends the name, for it is no word character.
    have hend : ∀ c ∈ ('/' :: rest).head?, Text.isWordChar c = false := by simp [Text.isWordChar]
    simp only [hole?, Lexeme.takeWhile_append_of_head? hname hend,
      Lexeme.dropWhile_append_of_head? hname hend]
    cases name with
    | nil => exact absurd rfl hne
    | cons d ds => rfl

theorem hole?_eq_none_iff : hole? cs = none ↔ ¬StartsHole cs := by
  rw [Option.eq_none_iff_forall_ne_some]
  constructor
  · rintro h ⟨name, rest, hhole⟩
    exact h (name, rest) (hole?_eq_some_iff.mpr hhole)
  · rintro h ⟨name, rest⟩ hhole
    exact h ⟨name, rest, hole?_eq_some_iff.mp hhole⟩

theorem pieces_of_hole? (h : hole? cs = some (name, rest)) :
    pieces cs = .hole name :: pieces rest := by
  obtain ⟨-, -, rfl⟩ := hole?_eq_some_iff.mp h
  rw [pieces]
  split
  · next hfound =>
    obtain ⟨rfl, rfl⟩ := Prod.mk.inj (Option.some.inj (h.symm.trans hfound))
    rfl
  · next hnone =>
    rw [h] at hnone
    cases hnone

theorem pieces_cons (h : ¬StartsHole (c :: cs)) : pieces (c :: cs) = .char c :: pieces cs := by
  rw [pieces]
  split
  · next hfound =>
    rw [hole?_eq_none_iff.mpr h] at hfound
    cases hfound
  · rfl

/-- Where no hole starts, there are plain characters. -/
theorem pieces_append (h : ∀ i < front.length, ¬StartsHole ((front ++ cs).drop i)) :
    pieces (front ++ cs) = front.map .char ++ pieces cs := by
  induction front with
  | nil => rfl
  | cons c front ih =>
    have hc : ¬StartsHole (c :: (front ++ cs)) := h 0 (Nat.succ_pos _)
    have hrest := ih fun i hi => h (i + 1) (Nat.succ_lt_succ hi)
    rw [List.cons_append, pieces_cons hc, hrest, List.map_cons, List.cons_append]

/-- The pieces of a text that is cut. -/
def piecesOf (holes : List Hole) (last : List Char) : List Piece :=
  holes.flatMap (fun hole => hole.front.map .char ++ [.hole hole.name]) ++ last.map .char

/-- The pieces of a text are those of its cut. -/
theorem pieces_of_cut (h : Cut cs holes last) : pieces cs = piecesOf holes last := by
  induction h with
  | @last cs h =>
    -- No hole starts among the characters, and so they are read one by one.
    have hfirst : ∀ i < cs.length, ¬StartsHole ((cs ++ []).drop i) := by
      rw [List.append_nil]
      exact fun i _ => h i
    have hchars := pieces_append hfirst
    rwa [List.append_nil, pieces, List.append_nil] at hchars
  | @hole front name rest last holes hne hname hfirst _ ih =>
    rw [pieces_append hfirst, pieces_of_hole? (hole?_eq_some_iff.mpr ⟨hne, hname, rfl⟩), ih]
    simp [piecesOf]

/-- A character in front that starts no hole is part of what stands before the first hole. -/
theorem Cut.exists_cons (hc : ¬StartsHole (c :: cs)) (h : Cut cs holes last) :
    ∃ holes' last', Cut (c :: cs) holes' last' := by
  cases h with
  | last h =>
    refine ⟨[], c :: cs, .last fun i => ?_⟩
    cases i with
    | zero => exact hc
    | succ i => exact h i
  | @hole front name rest _ holes hne hname hfirst hrest =>
    -- In the longer front a hole may start at the new character, or where one could before.
    have hfirst' : ∀ i < (c :: front).length,
        ¬StartsHole ((c :: front ++ '/' :: (name ++ '/' :: rest)).drop i) := by
      intro i hi
      cases i with
      | zero => exact hc
      | succ i => exact hfirst i (Nat.lt_of_succ_lt_succ hi)
    exact ⟨⟨c :: front, name⟩ :: holes, last, .hole hne hname hfirst' hrest⟩

/-- **Every text is cut** at its holes. -/
theorem exists_cut (cs : List Char) : ∃ holes last, Cut cs holes last := by
  induction cs using pieces.induct with
  | case1 => exact ⟨[], [], .last fun i => by simp [StartsHole]⟩
  | case2 c cs name rest hhole ih =>
    obtain ⟨holes, last, hrest⟩ := ih
    obtain ⟨hne, hname, heq⟩ := hole?_eq_some_iff.mp hhole
    have hfirst : ∀ i < ([] : List Char).length,
        ¬StartsHole (([] ++ '/' :: (name ++ '/' :: rest)).drop i) := by simp
    rw [heq]
    exact ⟨⟨[], name⟩ :: holes, last, .hole hne hname hfirst hrest⟩
  | case3 c cs hnone ih =>
    obtain ⟨holes, last, hrest⟩ := ih
    exact hrest.exists_cons (hole?_eq_none_iff.mp hnone)

/-- A text is cut in one way only. -/
theorem Cut.unique {holes' : List Hole} {last' : List Char} (h : Cut cs holes last)
    (h' : Cut cs holes' last') : holes' = holes ∧ last' = last := by
  induction h generalizing holes' last' with
  | @last cs h =>
    cases h' with
    | last => exact ⟨rfl, rfl⟩
    | @hole front name rest _ holes hne hname _ _ =>
      refine absurd ⟨name, rest, hne, hname, ?_⟩ (h front.length)
      rw [List.drop_left]
  | @hole front name rest last holes hne hname hfirst hrest ih =>
    -- The first holes stand in the same text, but in fronts that may differ.
    generalize hcs : front ++ '/' :: (name ++ '/' :: rest) = cs at h' hfirst
    cases h' with
    | last h' =>
      refine absurd ⟨name, rest, hne, hname, ?_⟩ (h' front.length)
      rw [← hcs, List.drop_left]
    | @hole front' name' rest' _ holes' hne' hname' hfirst' hrest' =>
      -- Neither first hole starts before the other one.
      have hle : front.length ≤ front'.length := by
        by_contra hlt
        refine hfirst front'.length (by omega) ⟨name', rest', hne', hname', ?_⟩
        rw [List.drop_left]
      have hge : front'.length ≤ front.length := by
        by_contra hlt
        refine hfirst' front.length (by omega) ⟨name, rest, hne, hname, ?_⟩
        rw [← hcs, List.drop_left]
      obtain ⟨rfl, hbehind⟩ := List.append_inj hcs (by omega)
      -- At one place the same hole is found in both cuts.
      have hhole : hole? ('/' :: (name ++ '/' :: rest)) = some (name, rest) :=
        hole?_eq_some_iff.mpr ⟨hne, hname, rfl⟩
      have hhole' : hole? ('/' :: (name ++ '/' :: rest)) = some (name', rest') :=
        hole?_eq_some_iff.mpr ⟨hne', hname', hbehind⟩
      obtain ⟨rfl, rfl⟩ := Prod.mk.inj (Option.some.inj (hhole.symm.trans hhole'))
      obtain ⟨rfl, rfl⟩ := ih hrest'
      exact ⟨rfl, rfl⟩

/-! ### Filling -/

/-- The characters of filled pieces. -/
def fillPieces (scope : Scope) (site : String) (ps : List Piece) : Except Error (List Char) :=
  (ps.mapM (fillPiece scope site)).map List.flatten

theorem fill_eq (scope : Scope) (site text : String) :
    fill scope site text = (fillPieces scope site (pieces text.toList)).map String.ofList := by
  rw [fill, fillPieces]
  cases (pieces text.toList).mapM (fillPiece scope site) <;> rfl

variable {ps : List Piece}

theorem fillPieces_cons {p : Piece} (h : fillPiece scope site p = .ok front) (ps : List Piece) :
    fillPieces scope site (p :: ps) = (fillPieces scope site ps).map (front ++ ·) := by
  rw [fillPieces, fillPieces, List.mapM_cons, h]
  cases ps.mapM (fillPiece scope site) <;> rfl

/-- Characters are kept. -/
theorem fillPieces_append (front : List Char) (ps : List Piece) :
    fillPieces scope site (front.map .char ++ ps) =
      (fillPieces scope site ps).map (front ++ ·) := by
  induction front with
  | nil =>
    rw [List.map_nil, List.nil_append]
    cases fillPieces scope site ps <;> rfl
  | cons c front ih =>
    have hpiece : fillPiece scope site (.char c) = .ok [c] := rfl
    rw [List.map_cons, List.cons_append, fillPieces_cons hpiece, ih]
    cases fillPieces scope site ps <;> rfl

theorem fillPieces_hole_of_gives {value : String}
    (h : scope.Gives (String.ofList name) value) (ps : List Piece) :
    fillPieces scope site (.hole name :: ps) =
      (fillPieces scope site ps).map (value.toList ++ ·) := by
  have hpiece : fillPiece scope site (.hole name) = .ok value.toList := by
    simp only [fillPiece, Scope.get?_eq_some_iff.mpr h]
  exact fillPieces_cons hpiece ps

theorem fillPieces_hole_of_not_gives (h : ¬∃ value, scope.Gives (String.ofList name) value)
    (ps : List Piece) : fillPieces scope site (.hole name :: ps) =
      .error (.unboundVariable site (String.ofList name)) := by
  have hnone : scope.get? (String.ofList name) = none := by
    rw [Option.eq_none_iff_forall_ne_some]
    exact fun value hvalue => h ⟨value, Scope.get?_eq_some_iff.mp hvalue⟩
  have hpiece : fillPiece scope site (.hole name) =
      .error (.unboundVariable site (String.ofList name)) := by
    simp only [fillPiece, hnone]
  rw [fillPieces, List.mapM_cons, hpiece]
  rfl

theorem piecesOf_cons (hole : Hole) (holes : List Hole) (last : List Char) :
    piecesOf (hole :: holes) last =
      hole.front.map .char ++ .hole hole.name :: piecesOf holes last := by
  simp [piecesOf]

/-- The hole has a value. -/
def Hole.HasValue (hole : Hole) (scope : Scope) : Prop :=
  ∃ value, scope.Gives (String.ofList hole.name) value

/-- The holes have the values, one after another. -/
def Values (scope : Scope) (holes : List Hole) (values : List String) : Prop :=
  List.Forall₂ (fun hole value => scope.Gives (String.ofList hole.name) value) holes values

/-- The hole is the first one without a value. -/
def FirstWithout (scope : Scope) (holes : List Hole) (hole : Hole) : Prop :=
  ∃ before after, holes = before ++ hole :: after ∧ (∀ h ∈ before, h.HasValue scope) ∧
    ¬hole.HasValue scope

/-- All holes have values, or one is the first without. -/
theorem exists_values_or_firstWithout (scope : Scope) (holes : List Hole) :
    (∃ values, Values scope holes values) ∨ ∃ hole, FirstWithout scope holes hole := by
  induction holes with
  | nil => exact .inl ⟨[], .nil⟩
  | cons hole holes ih =>
    by_cases hvalue : hole.HasValue scope
    · obtain ⟨value, hgives⟩ := hvalue
      obtain ⟨values, hvalues⟩ | ⟨missing, before, after, rfl, hbefore, hmissing⟩ := ih
      · exact .inl ⟨value :: values, .cons hgives hvalues⟩
      · refine .inr ⟨missing, hole :: before, after, rfl, ?_, hmissing⟩
        exact List.forall_mem_cons.mpr ⟨⟨value, hgives⟩, hbefore⟩
    · exact .inr ⟨hole, [], holes, rfl, by simp, hvalue⟩

theorem Values.hasValue {values : List String} (h : Values scope holes values) :
    ∀ hole ∈ holes, hole.HasValue scope := by
  induction h with
  | nil => simp
  | cons hgives _ ih => exact List.forall_mem_cons.mpr ⟨⟨_, hgives⟩, ih⟩

theorem FirstWithout.exists_mem {hole : Hole} (h : FirstWithout scope holes hole) :
    ∃ hole ∈ holes, ¬hole.HasValue scope := by
  obtain ⟨before, after, rfl, -, hmissing⟩ := h
  exact ⟨hole, by simp, hmissing⟩

/-- Values stand in the place of their holes. -/
theorem fillPieces_of_values {values : List String} (h : Values scope holes values)
    (site : String) (last : List Char) :
    fillPieces scope site (piecesOf holes last) = .ok (filled holes values last) := by
  induction h with
  | nil =>
    have hlast : fillPieces scope site (last.map .char ++ []) = .ok (last ++ []) :=
      fillPieces_append last []
    rwa [List.append_nil, List.append_nil] at hlast
  | @cons hole value holes values hgives _ ih =>
    rw [piecesOf_cons, fillPieces_append, fillPieces_hole_of_gives hgives, ih]
    rfl

/-- **The first hole without a value** is the error. -/
theorem fillPieces_of_firstWithout {hole : Hole} (h : FirstWithout scope holes hole)
    (site : String) (last : List Char) :
    fillPieces scope site (piecesOf holes last) =
      .error (.unboundVariable site (String.ofList hole.name)) := by
  -- The holes before it have values, so the induction is on these.
  obtain ⟨before, after, rfl, hbefore, hmissing⟩ := h
  induction before with
  | nil =>
    rw [List.nil_append, piecesOf_cons, fillPieces_append,
      fillPieces_hole_of_not_gives hmissing]
    rfl
  | cons first before ih =>
    rw [List.forall_mem_cons] at hbefore
    obtain ⟨⟨value, hgives⟩, hbefore⟩ := hbefore
    rw [List.cons_append, piecesOf_cons, fillPieces_append, fillPieces_hole_of_gives hgives,
      ih hbefore]
    rfl

section

variable {text : String} (hcut : Cut text.toList holes last)

include hcut

theorem fill_of_values {values : List String} (h : Values scope holes values) (site : String) :
    fill scope site text = .ok (String.ofList (filled holes values last)) := by
  rw [fill_eq, pieces_of_cut hcut, fillPieces_of_values h]
  rfl

theorem fill_of_firstWithout {hole : Hole} (h : FirstWithout scope holes hole) (site : String) :
    fill scope site text = .error (.unboundVariable site (String.ofList hole.name)) := by
  rw [fill_eq, pieces_of_cut hcut, fillPieces_of_firstWithout h]
  rfl

theorem exists_fill_iff :
    (∃ out, fill scope site text = .ok out) ↔ ∀ hole ∈ holes, hole.HasValue scope := by
  obtain ⟨values, hvalues⟩ | ⟨hole, hmissing⟩ := exists_values_or_firstWithout scope holes
  · rw [fill_of_values hcut hvalues]
    exact iff_of_true ⟨_, rfl⟩ hvalues.hasValue
  · obtain ⟨other, hmem, hnone⟩ := hmissing.exists_mem
    rw [fill_of_firstWithout hcut hmissing]
    exact iff_of_false (by simp) fun hall => hnone (hall other hmem)

theorem fill_eq_ok_iff {out : String} : fill scope site text = .ok out ↔
    ∃ values, Values scope holes values ∧ out = String.ofList (filled holes values last) := by
  constructor
  · intro hout
    obtain ⟨values, hvalues⟩ | ⟨hole, hmissing⟩ := exists_values_or_firstWithout scope holes
    · rw [fill_of_values hcut hvalues] at hout
      exact ⟨values, hvalues, (Except.ok.inj hout).symm⟩
    · rw [fill_of_firstWithout hcut hmissing] at hout
      cases hout
  · rintro ⟨values, hvalues, rfl⟩
    exact fill_of_values hcut hvalues site

theorem fill_eq_error_iff {e : Error} : fill scope site text = .error e ↔
    ∃ hole, FirstWithout scope holes hole ∧
      e = .unboundVariable site (String.ofList hole.name) := by
  constructor
  · intro herror
    obtain ⟨values, hvalues⟩ | ⟨hole, hmissing⟩ := exists_values_or_firstWithout scope holes
    · rw [fill_of_values hcut hvalues] at herror
      cases herror
    · rw [fill_of_firstWithout hcut hmissing] at herror
      exact ⟨hole, hmissing, (Except.error.inj herror).symm⟩
  · rintro ⟨hole, hmissing, rfl⟩
    exact fill_of_firstWithout hcut hmissing site

end

/-- **A template is filled hole by hole.**  There is one way to cut it at its holes.  It is filled
if and only if every hole has a value, with the values in the place of the holes; otherwise the
error names the first hole without one. -/
theorem fill_follows_cut (scope : Scope) (site text : String) :
    ∃ holes last, Cut text.toList holes last ∧
      (∀ holes' last', Cut text.toList holes' last' → holes' = holes ∧ last' = last) ∧
      ((∃ out, fill scope site text = .ok out) ↔ ∀ hole ∈ holes, hole.HasValue scope) ∧
      (∀ out, fill scope site text = .ok out ↔
        ∃ values, Values scope holes values ∧ out = String.ofList (filled holes values last)) ∧
      (∀ e, fill scope site text = .error e ↔
        ∃ hole, FirstWithout scope holes hole ∧
          e = .unboundVariable site (String.ofList hole.name)) := by
  obtain ⟨holes, last, hcut⟩ := exists_cut text.toList
  exact ⟨holes, last, hcut, fun _ _ => hcut.unique, exists_fill_iff hcut,
    fun _ => fill_eq_ok_iff hcut, fun _ => fill_eq_error_iff hcut⟩

/-- A slash belongs to one hole only, and a value is not searched for holes. -/
example :
    fill ⟨["/1/", "y"], .ofList [("b", "")]⟩ "m" "//0/1//b" = .ok "//1/1//b" ∧
      fill ⟨["x"], .ofList [("b", "")]⟩ "m" "/b/0/" = .error (.unboundVariable "m" "b") := by
  constructor <;> decide +kernel

end Template
end TapeLang
