/-!
# Reading bytes as text

File names and program texts arrive as bytes.  `decode?` accepts UTF-8 only.  `decodeLossy` reads
any bytes, for display: each longest start of a character that the next byte breaks off becomes one
replacement character, and so does each byte that can start none.

A character's first byte fixes how many bytes follow and the range of each (`tailRanges`); the
ranges of the second byte keep out overlong forms, surrogates and values above `0x10FFFF`.
-/

namespace TapeLang.Text.Utf8

/-- The text that the bytes spell, if they are UTF-8. -/
def decode? (bytes : ByteArray) : Option String := String.fromUTF8? bytes

/-- The character that stands for bytes that spell none. -/
def replacement : Char := '\uFFFD'

/-- The ranges of the bytes that follow a first byte, in order; `none` for a byte that starts no
character. -/
def tailRanges (first : UInt8) : Option (List (UInt8 × UInt8)) :=
  if first < 0x80 then some []
  else if first < 0xC2 then none
  else if first < 0xE0 then some [(0x80, 0xBF)]
  else if first == 0xE0 then some [(0xA0, 0xBF), (0x80, 0xBF)]
  else if first == 0xED then some [(0x80, 0x9F), (0x80, 0xBF)]
  else if first < 0xF0 then some [(0x80, 0xBF), (0x80, 0xBF)]
  else if first == 0xF0 then some [(0x90, 0xBF), (0x80, 0xBF), (0x80, 0xBF)]
  else if first < 0xF4 then some [(0x80, 0xBF), (0x80, 0xBF), (0x80, 0xBF)]
  else if first == 0xF4 then some [(0x80, 0x8F), (0x80, 0xBF), (0x80, 0xBF)]
  else none

/-- How many bytes in front lie in the ranges, one after another. -/
def fitting : List (UInt8 × UInt8) → List UInt8 → Nat
  | (low, high) :: ranges, b :: bytes =>
    if low ≤ b && b ≤ high then fitting ranges bytes + 1 else 0
  | _, _ => 0

/-- The bits of the code point that a first byte carries. -/
def leadBits (first : UInt8) : Nat :=
  if first < 0x80 then first.toNat
  else if first < 0xE0 then first.toNat - 0xC0
  else if first < 0xF0 then first.toNat - 0xE0
  else first.toNat - 0xF0

def character (first : UInt8) (tail : List UInt8) : Char :=
  Char.ofNat (tail.foldl (fun n b => 64 * n + (b.toNat - 0x80)) (leadBits first))

/-- Bytes read as text, whatever they are: what spells no character becomes `replacement`, once
for each longest start of one. -/
def decodeLossy : List UInt8 → List Char
  | [] => []
  | first :: bytes =>
    match tailRanges first with
    | none => replacement :: decodeLossy bytes
    | some ranges =>
      -- The longest start of a character is replaced as a whole, and what does not fit is read
      -- anew.
      let n := fitting ranges bytes
      (if n = ranges.length then character first (bytes.take n) else replacement) ::
        decodeLossy (bytes.drop n)
termination_by bytes => bytes.length
decreasing_by
  · simp
  · simp only [List.length_drop, List.length_cons]; omega

end TapeLang.Text.Utf8
