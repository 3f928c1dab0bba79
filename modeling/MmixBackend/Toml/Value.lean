import MmixBackend.Text.Numeral

/-!
# TOML values

A TOML document is a list of items: pairs of a key and a value, and headers that say which table the
following pairs belong to. Numbers and dates are kept as they are written; whether a number is well
formed is decided by whoever needs its value.
-/

namespace MmixBackend.Toml

/-- A key: the names of the tables it leads through and of the value at its end. -/
abbrev Key := List String

mutual

/-- Values. -/
inductive Value where
  | string (s : String)
  | boolean (b : Bool)
  | integer (text : List Char)
  | float (text : List Char)
  | date (text : List Char)
  | array (items : List Value)
  /-- A table between braces. -/
  | table (pairs : List Pair)

/-- A key and its value. -/
inductive Pair where
  | mk (key : Key) (value : Value)

end

instance : Inhabited Value := ⟨.boolean false⟩

/-- The items of a document. -/
inductive Item where
  | pair (p : Pair)
  /-- The header of a table. -/
  | table (key : Key)
  /-- The header of an element of an array of tables. -/
  | element (key : Key)

/-! ### Integers -/

/-- The digits of a numeral without the underscores, which may only stand between digits. -/
def joinDigits? : List Char → Option (List Char)
  | [] => some []
  | [c] => if c = '_' then none else some [c]
  | c :: d :: cs =>
    if c = '_' then none
    else if d = '_' then
      match cs with
      | [] => none
      | _ => (joinDigits? cs).map (c :: ·)
    else (joinDigits? (d :: cs)).map (c :: ·)

/-- The value of an integer in a radix that has been named. -/
def readNatural? (base : Nat) (cs : List Char) : Option Int := do
  let digits ← joinDigits? cs
  let w ← (Text.readWord (.fixed base) (String.ofList digits)).toOption
  return w.toInt

/-- The value of an integer as it is written: decimal without superfluous zeros, or in the radix
named by `0x`, `0o` or `0b`. -/
def readInteger? : List Char → Option Int
  | '0' :: 'x' :: d :: ds => readNatural? 16 (d :: ds)
  | '0' :: 'o' :: d :: ds => readNatural? 8 (d :: ds)
  | '0' :: 'b' :: d :: ds => readNatural? 2 (d :: ds)
  | cs =>
    let (sign, digits) := match cs with
      | '+' :: ds => (['+'], ds)
      | '-' :: ds => (['-'], ds)
      | ds => ([], ds)
    match joinDigits? digits with
    | none => none
    | some ('0' :: _ :: _) => none
    | some ds => (Text.readWord (.fixed 10) (String.ofList (sign ++ ds))).toOption.map Int64.toInt

end MmixBackend.Toml
