import MmixBackend.Text.Printable

/-!
# Quoted text

Messages show texts of the program in double quotes. A quote and a backslash are written behind a
backslash, the usual control characters by their letters, other unprintable characters by their
code in hexadecimal digits, and every printable character as itself.
-/

namespace MmixBackend.Text

/-- The hexadecimal digits of `n`, padded with zeros on the left to at least `width` digits. -/
def hexPadded (width n : Nat) : String :=
  let digits := Nat.toDigits 16 n
  String.ofList (List.replicate (width - digits.length) '0' ++ digits)

/-- The letter behind the backslash for a control character that has one. -/
def controlLetter (c : Char) : Option Char :=
  match c.toNat with
  | 7 => some 'a'
  | 8 => some 'b'
  | 9 => some 't'
  | 10 => some 'n'
  | 11 => some 'v'
  | 12 => some 'f'
  | 13 => some 'r'
  | _ => none

/-- The written form of one character inside quotes. -/
def escapeChar (c : Char) : String :=
  if c = '"' then "\\\""
  else if c = '\\' then "\\\\"
  else if isPrintable c then c.toString
  else match controlLetter c with
    | some letter => "\\" ++ letter.toString
    | none =>
      let n := c.toNat
      if n < 0x20 ∨ n = 0x7F then "\\x" ++ hexPadded 2 n
      else if n < 0x10000 then "\\u" ++ hexPadded 4 n
      else "\\U" ++ hexPadded 8 n

/-- A character between apostrophes. -/
def quotedChar (c : Char) : String :=
  let inner :=
    if c = '\'' then "\\'"
    else if c = '"' then "\""
    else escapeChar c
  "'" ++ inner ++ "'"

/-- A text in double quotes. -/
def quoted (s : String) : String :=
  "\"" ++ s.foldl (fun acc c => acc ++ escapeChar c) "" ++ "\""

end MmixBackend.Text
