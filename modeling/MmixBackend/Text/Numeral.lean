import MmixBackend.Word

/-!
# Integer numerals

Reads the spellings of 64-bit integers. A decimal numeral is an optional sign and decimal digits. A
general numeral may name its radix: `0x`, `0o` and `0b` (in either case) select 16, 8 and 2, a
leading zero alone selects 8, and single underscores may separate digits or follow the radix mark.

Reading proceeds from left to right, so of two faults in one text the first one decides: a digit that
does not belong to the radix is a fault of spelling, and a value that has outgrown 64 bits is a fault
of range.
-/

namespace MmixBackend.Text

/-- Why a text is not an integer. -/
inductive NumeralFault where
  /-- The text is no numeral. -/
  | spelling
  /-- The numeral denotes a value outside the representable range. -/
  | range
  deriving DecidableEq, Repr

/-- Which numerals are read. -/
inductive Radix where
  /-- The numeral names its radix. -/
  | named
  /-- The numeral is in the given radix. -/
  | fixed (base : Nat)
  deriving DecidableEq, Repr

/-- The value of a letter or digit as a digit of some radix up to 36. -/
def digitValue (c : Char) : Option Nat :=
  if '0' ≤ c ∧ c ≤ '9' then some (c.toNat - '0'.toNat)
  else if 'a' ≤ c ∧ c ≤ 'z' then some (c.toNat - 'a'.toNat + 10)
  else if 'A' ≤ c ∧ c ≤ 'Z' then some (c.toNat - 'A'.toNat + 10)
  else none

/-- The radix that a mark letter after a leading zero selects. -/
def markedRadix (c : Char) : Option Nat :=
  if c = 'b' ∨ c = 'B' then some 2
  else if c = 'o' ∨ c = 'O' then some 8
  else if c = 'x' ∨ c = 'X' then some 16
  else none

/-- Splits the radix mark off a numeral without sign. -/
def splitRadix : List Char → Nat × List Char
  | '0' :: m :: d :: rest =>
    match markedRadix m with
    | some b => (b, d :: rest)
    | none => (8, m :: d :: rest)
  | '0' :: rest => (8, rest)
  | cs => (10, cs)

/-- Reads digits, skipping underscores if `separators` are allowed. -/
def readDigits (base : Nat) (separators : Bool) : (acc : Nat) → List Char → Except NumeralFault Nat
  | acc, [] => .ok acc
  | acc, c :: cs =>
    if separators ∧ c = '_' then readDigits base separators acc cs
    else match digitValue c with
      | none => .error .spelling
      | some d =>
        if base ≤ d then .error .spelling
        else if 2 * Word.bound ≤ acc * base + d then .error .range
        else readDigits base separators (acc * base + d) cs

/-- What precedes a position of a numeral, as far as underscores are concerned. -/
inductive SeparatorContext where
  | start
  | digit
  | underscore
  | other
  deriving DecidableEq

/-- Whether every underscore stands between two digits, the radix mark counting as a digit. -/
def separatorsFrom (hex : Bool) : SeparatorContext → List Char → Bool
  | ctx, [] => ctx ≠ .underscore
  | ctx, c :: cs =>
    let isDigit := c.isDigit ∨ (hex ∧ (('a' ≤ c ∧ c ≤ 'f') ∨ ('A' ≤ c ∧ c ≤ 'F')))
    if isDigit then separatorsFrom hex .digit cs
    else if c = '_' then ctx = .digit && separatorsFrom hex .underscore cs
    else ctx ≠ .underscore && separatorsFrom hex .other cs

/-- Whether the underscores of a numeral without sign are well placed. -/
def separatorsPlaced : List Char → Bool
  | '0' :: m :: rest =>
    match markedRadix m with
    | some b => separatorsFrom (b = 16) .digit rest
    | none => separatorsFrom false .start ('0' :: m :: rest)
  | cs => separatorsFrom false .start cs

/-- Reads a numeral without sign. -/
def readUnsigned (radix : Radix) (cs : List Char) : Except NumeralFault Nat :=
  if cs.isEmpty then .error .spelling
  else match radix with
    | .fixed base => readDigits base false 0 cs
    | .named =>
      let (base, digits) := splitRadix cs
      match readDigits base true 0 digits with
      | .error fault => .error fault
      | .ok n => if cs.contains '_' && !separatorsPlaced cs then .error .spelling else .ok n

/-- Reads a numeral with an optional sign as a word. -/
def readWord (radix : Radix) (s : String) : Except NumeralFault Word :=
  let (negative, digits) := match s.toList with
    | '-' :: cs => (true, cs)
    | '+' :: cs => (false, cs)
    | cs => (false, cs)
  match readUnsigned radix digits with
  | .error fault => .error fault
  | .ok n =>
    if negative then
      if Word.bound < n then .error .range else .ok (Int64.ofInt (-n))
    else
      if Word.bound ≤ n then .error .range else .ok (Int64.ofNat n)

end MmixBackend.Text
