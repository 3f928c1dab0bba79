/-!
# Machine words

Every scalar of the source language, of the intermediate code and of the target machine occupies
one eight-byte word, and every size, offset and address is a word too. Words are two's-complement
64-bit integers: addition, subtraction, multiplication and negation wrap around.

The machine's division rounds towards negative infinity, while the division of `Int64` truncates;
`Word.floorDivMod` corrects the truncated quotient and remainder.
-/

namespace MmixBackend

/-- A machine word: a 64-bit two's-complement integer. -/
abbrev Word := Int64

namespace Word

/-- The number of bytes of a word. -/
def byteSize : Word := 8

/-- One more than the greatest word, 2 to the power of 63. -/
def bound : Nat := 0x8000000000000000

/-- The decimal spelling of a word. -/
def text (w : Word) : String := toString w.toInt

/-- The word that represents a truth value. -/
def ofBool (b : Bool) : Word := if b then 1 else 0

/-- Quotient and remainder rounded towards negative infinity; the remainder has the sign of the
divisor. The divisor must not be zero. -/
def floorDivMod (x y : Word) : Word × Word :=
  let q := x / y
  let r := x % y
  if r ≠ 0 ∧ decide (r < 0) ≠ decide (y < 0) then (q - 1, r + y) else (q, r)

/-- The quotient of `floorDivMod`. -/
def floorDiv (x y : Word) : Word := (floorDivMod x y).1

/-- The remainder of `floorDivMod`. -/
def floorMod (x y : Word) : Word := (floorDivMod x y).2

/-- The `i`-th group of sixteen bits of a word, counted from the low end. -/
def wyde (w : Word) (i : Nat) : Nat := (w.toUInt64.toNat >>> (16 * i)) % 0x10000

end Word

end MmixBackend
