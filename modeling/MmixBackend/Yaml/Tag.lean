import MmixBackend.Text.Numeral
import MmixBackend.Yaml.Scalar

/-!
# Tags

The tag of a node says what kind of value it is. It may be written in the document; otherwise a plain
scalar gets it from its text, and any other scalar is a string. Dates are strings.
-/

namespace MmixBackend.Yaml

/-- The kinds of values. -/
inductive Tag where
  | null
  | bool
  | int
  | float
  | str
  | merge
  | seq
  | map
  /-- Any other tag, by its text. -/
  | other (text : String)
  deriving DecidableEq, Repr

namespace Tag

/-- What the standard tags start with. -/
def standardStart : String := "tag:yaml.org,2002:"

/-- The tag with a text. -/
def ofText (text : String) : Tag :=
  if text = standardStart ++ "null" ∨ text = "!!null" then null
  else if text = standardStart ++ "bool" ∨ text = "!!bool" then bool
  else if text = standardStart ++ "int" ∨ text = "!!int" then int
  else if text = standardStart ++ "float" ∨ text = "!!float" then float
  else if text = standardStart ++ "str" ∨ text = "!!str" then str
  else if text = standardStart ++ "merge" ∨ text = "!!merge" then merge
  else if text = standardStart ++ "seq" ∨ text = "!!seq" then seq
  else if text = standardStart ++ "map" ∨ text = "!!map" then map
  else other text

end Tag

/-! ### Numbers -/

/-- The integer that a text denotes in a radix, signed or up to the largest unsigned word. -/
def integerIn? (radix : Text.Radix) (cs : List Char) : Option Int :=
  match Text.readWord radix (String.ofList cs) with
  | .ok w => some w.toInt
  | .error _ => (Text.readUnsigned radix cs).toOption.map Int.ofNat

/-- The integer that a plain text denotes. Underscores do not count. Behind `0b` and `0o` there may
be a sign. -/
def readInteger? (s : String) : Option Int :=
  let cs := s.toList.filter (· ≠ '_')
  match integerIn? .named cs, cs with
  | some n, _ => some n
  | none, '0' :: 'b' :: ds => integerIn? (.fixed 2) ds
  | none, '0' :: 'o' :: ds => integerIn? (.fixed 8) ds
  | none, _ => none

/-- A number in decimal notation: `digits` scaled by a power of ten. -/
structure Decimal where
  negative : Bool
  digits : Nat
  exponent : Int
  deriving DecidableEq, Repr

/-- The value of a run of decimal digits. -/
def decimalValue (cs : List Char) : Nat :=
  cs.foldl (fun n c => n * 10 + (c.toNat - '0'.toNat)) 0

/-- Reads an exponent, or nothing at the end of a text. -/
def readExponent? : List Char → Option Int
  | [] => some 0
  | e :: cs =>
    if e = 'e' ∨ e = 'E' then
      let (negative, ds) := match cs with
        | '-' :: ds => (true, ds)
        | '+' :: ds => (false, ds)
        | ds => (false, ds)
      if ds.isEmpty ∨ !ds.all Char.isDigit then none
      else some (if negative then -(decimalValue ds : Int) else decimalValue ds)
    else none

/-- Reads a number in decimal notation: a sign, digits with at most one point among them, an
exponent. -/
def readDecimal? (cs : List Char) : Option Decimal :=
  let (negative, cs) := match cs with
    | '-' :: cs => (true, cs)
    | '+' :: cs => (false, cs)
    | cs => (false, cs)
  let whole := cs.takeWhile Char.isDigit
  let rest := cs.dropWhile Char.isDigit
  let (part, rest) := match rest with
    | '.' :: cs => (cs.takeWhile Char.isDigit, cs.dropWhile Char.isDigit)
    | _ => ([], rest)
  if whole.isEmpty ∧ part.isEmpty then none
  else (readExponent? rest).map fun e =>
    { negative, digits := decimalValue (whole ++ part), exponent := e - part.length }

/-- The largest power of ten that matters for the range of floating-point numbers. -/
def exponentBound : Nat := 400

/-- A fraction with the value of a decimal number, without its sign. Values far outside the range of
floating-point numbers are replaced by others far outside. -/
def Decimal.fraction (d : Decimal) : Nat × Nat :=
  if d.digits = 0 then (0, 1)
  else
    let size : Int := (Nat.toDigits 10 d.digits).length + d.exponent
    if exponentBound < size then (Nat.pow 10 exponentBound, 1)
    else if size < -exponentBound then (1, Nat.pow 10 exponentBound)
    else if 0 ≤ d.exponent then (d.digits * Nat.pow 10 d.exponent.toNat, 1)
    else (d.digits, Nat.pow 10 (-d.exponent).toNat)

/-- The least value that is rounded up past the largest floating-point number. -/
def floatLimit : Nat := 1 <<< 1024 - 1 <<< 970

/-- Whether a decimal number has a floating-point number near it. -/
def Decimal.inRange (d : Decimal) : Bool :=
  let (n, k) := d.fraction
  n < floatLimit * k

/-- A floating-point number as it is written. -/
inductive FloatText where
  | nan
  | infinity (negative : Bool)
  | decimal (d : Decimal)
  deriving DecidableEq, Repr

/-- The floating-point number that a plain text denotes. -/
def readFloat? (s : String) : Option FloatText :=
  if s ∈ [".nan", ".NaN", ".NAN"] then some .nan
  else if s ∈ [".inf", ".Inf", ".INF", "+.inf", "+.Inf", "+.INF"] then some (.infinity false)
  else if s ∈ ["-.inf", "-.Inf", "-.INF"] then some (.infinity true)
  else match readDecimal? (s.toList.filter (· ≠ '_')) with
    | some d => if d.inRange then some (.decimal d) else none
    | none => none

/-- The tag that the text of a plain scalar implies. -/
def implicitTag (s : String) : Tag :=
  if s ∈ ["", "~", "null", "Null", "NULL"] then .null
  else if s ∈ ["true", "True", "TRUE", "false", "False", "FALSE"] then .bool
  else if s = "<<" then .merge
  else match s.toList with
    | c :: _ =>
      if c.isDigit || c = '+' || c = '-' then
        if (readInteger? s).isSome then .int
        else if (readFloat? s).isSome then .float
        else .str
      else if c = '.' && (readFloat? s).isSome then .float
      else .str
    | [] => .null

end MmixBackend.Yaml
