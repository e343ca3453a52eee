/-!
# Words and blanks

Names and values are made of word characters: the letters and digits of ASCII and the underscore.
A name that is called starts with a letter or an underscore.

A blank is a character with the Unicode property `White_Space`: twenty-five code points, in ten
runs.  Text is trimmed of blanks at both ends wherever a line or an argument is read.  `trim` is
`trimStart` and `trimEnd` together: only blanks are cut off (`takeWhile_append_trimStart`), and only
a text of blanks trims to nothing (`trimStart_eq_nil_iff`).  A text is what is left of it with
blanks around (`exists_eq_append_trim`), and these do not matter (`trim_append_append`).
-/

namespace TapeLang.Text

/-- A word character is a letter or a digit of ASCII, or the underscore. -/
def isWordChar (c : Char) : Bool := c.isAlphanum || c == '_'

/-- A word starts with a letter of ASCII or the underscore where a digit would read as a number. -/
def isWordStart (c : Char) : Bool := c.isAlpha || c == '_'

/-- A blank is a character with the Unicode property `White_Space`. -/
def isBlank (c : Char) : Bool :=
  let n := c.toNat
  (0x09 ≤ n && n ≤ 0x0D) || n == 0x20 || n == 0x85 || n == 0xA0 || n == 0x1680 ||
    (0x2000 ≤ n && n ≤ 0x200A) || n == 0x2028 || n == 0x2029 || n == 0x202F || n == 0x205F ||
    n == 0x3000

/-! ### Trimming -/

/-- The text from its first character that is not a blank. -/
def trimStart (cs : List Char) : List Char := cs.dropWhile isBlank

/-- The text up to its last character that is not a blank. -/
def trimEnd (cs : List Char) : List Char := (trimStart cs.reverse).reverse

def trim (cs : List Char) : List Char := trimEnd (trimStart cs)

/-- Cutting the front takes blanks only. -/
theorem takeWhile_append_trimStart (cs : List Char) : cs.takeWhile isBlank ++ trimStart cs = cs :=
  List.takeWhile_append_dropWhile

/-- Only a text of blanks is cut down to nothing. -/
theorem trimStart_eq_nil_iff {cs : List Char} : trimStart cs = [] ↔ ∀ c ∈ cs, isBlank c = true := by
  induction cs with
  | nil => simp [trimStart]
  | cons c cs ih => cases h : isBlank c <;> simp_all [trimStart]

/-! ### Blanks around a text -/

section

variable {front cs back : List Char}

theorem trimStart_append (h : ∀ c ∈ front, isBlank c = true) :
    trimStart (front ++ cs) = trimStart cs :=
  List.dropWhile_append_of_pos h

theorem trimEnd_append (h : ∀ c ∈ back, isBlank c = true) : trimEnd (cs ++ back) = trimEnd cs := by
  rw [trimEnd, List.reverse_append, trimStart_append (by simpa using h), trimEnd]

/-- Blanks at both ends are cut off. -/
theorem trim_append_append (hfront : ∀ c ∈ front, isBlank c = true)
    (hback : ∀ c ∈ back, isBlank c = true) : trim (front ++ cs ++ back) = trim cs := by
  have hall : trimStart back = [] := trimStart_eq_nil_iff.mpr hback
  rw [trim, List.append_assoc, trimStart_append hfront, trimStart, List.dropWhile_append]
  split
  · next hnil =>
    have hcs : trimStart cs = [] := List.isEmpty_iff.mp hnil
    rw [trim, hcs]
    exact congrArg trimEnd hall
  · exact trimEnd_append hback

/-- **A text is what is left of it**, with blanks around. -/
theorem exists_eq_append_trim (cs : List Char) :
    ∃ front back, (∀ c ∈ front, isBlank c = true) ∧ (∀ c ∈ back, isBlank c = true) ∧
      cs = front ++ trim cs ++ back := by
  have hmem : ∀ ds : List Char, ∀ c ∈ ds.takeWhile isBlank, isBlank c = true := fun ds =>
    List.all_eq_true.mp List.all_takeWhile
  refine ⟨cs.takeWhile isBlank, ((trimStart cs).reverse.takeWhile isBlank).reverse, hmem cs,
    fun c hc => hmem _ c (List.mem_reverse.mp hc), ?_⟩
  rw [List.append_assoc, trim, trimEnd, ← List.reverse_append, takeWhile_append_trimStart,
    List.reverse_reverse, takeWhile_append_trimStart]

/-- A trimmed text has no blanks to cut off. -/
theorem trim_trim (cs : List Char) : trim (trim cs) = trim cs := by
  obtain ⟨front, back, hfront, hback, heq⟩ := exists_eq_append_trim cs
  have htrim : trim (front ++ trim cs ++ back) = trim (trim cs) := trim_append_append hfront hback
  rw [← heq] at htrim
  exact htrim.symm

/-- Only a text of blanks is trimmed to nothing. -/
theorem trim_eq_nil_iff : trim cs = [] ↔ ∀ c ∈ cs, isBlank c = true := by
  constructor
  · intro h
    obtain ⟨front, back, hfront, hback, heq⟩ := exists_eq_append_trim cs
    rw [h, List.append_nil] at heq
    rw [heq]
    exact List.forall_mem_append.mpr ⟨hfront, hback⟩
  · intro h
    rw [trim, trimStart_eq_nil_iff.mpr h]
    rfl

end

end TapeLang.Text
