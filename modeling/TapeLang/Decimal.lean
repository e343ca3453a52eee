/-!
# Decimal numerals

A numeral is read digit by digit (`value`), with any number of leading zeros.  `canonical?` accepts
a name only if it is the one spelling of its number without leading zeros, and `toInt?` reads a
signed number as command-line options write them.
-/

namespace TapeLang.Decimal

/-- The number that the digits spell, most significant digit first.  Meant for the characters
`0` to `9`. -/
def value (digits : List Char) : Nat := digits.foldl (fun n d => 10 * n + (d.toNat - 48)) 0

def toNat? (cs : List Char) : Option Nat :=
  if cs ≠ [] && cs.all Char.isDigit then some (value cs) else none

/-- The number whose canonical spelling, without leading zeros, is the given name. -/
def canonical? (name : String) : Option Nat :=
  (toNat? name.toList).filter fun n => n.repr = name

/-- The number spelled by digits after at most one sign. -/
def toInt? : List Char → Option Int
  | '-' :: digits => (toNat? digits).map fun n => -n
  | '+' :: digits => (toNat? digits).map fun n => n
  | digits => (toNat? digits).map fun n => n

/-- A name is the canonical spelling of at most one number, and of that one exactly. -/
theorem repr_of_canonical? {name : String} {n : Nat} (h : canonical? name = some n) :
    n.repr = name := by
  simpa using (Option.filter_eq_some_iff.mp h).2

/-- The number that is printed is read. -/
theorem value_toList_repr (n : Nat) : value n.repr.toList = n := by
  rw [Nat.toList_repr]
  exact Nat.ofDigitChars_toDigits (by decide) (by decide)

theorem isDigit_of_mem_toList_repr {n : Nat} {d : Char} (h : d ∈ n.repr.toList) :
    d.isDigit = true := by
  rw [Nat.toList_repr] at h
  exact Nat.isDigit_of_mem_toDigits (by decide) (by decide) h

/-- **The canonical spelling** of a number is the printed one. -/
theorem canonical?_eq_some_iff {name : String} {n : Nat} :
    canonical? name = some n ↔ name = n.repr := by
  constructor
  · exact fun h => (repr_of_canonical? h).symm
  · rintro rfl
    have hdigits : n.repr.toList.all Char.isDigit = true :=
      List.all_eq_true.mpr fun d hd => isDigit_of_mem_toList_repr hd
    have hread : toNat? n.repr.toList = some n := by
      rw [toNat?, hdigits, value_toList_repr]
      simp
    rw [canonical?, hread]
    simp

end TapeLang.Decimal
