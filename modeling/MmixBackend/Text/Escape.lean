import MmixBackend.Text.Numeral

/-!
# Escapes

Quoted texts in documents give characters that cannot be typed by a backslash and a letter. Some
letters stand for a character, others announce its code in hexadecimal digits. Which letters there
are is decided by the kind of document.
-/

namespace MmixBackend.Text

/-- What a letter after a backslash stands for. -/
inductive Escape where
  | char (c : Char)
  /-- A character given by its code in so many hexadecimal digits. -/
  | code (digits : Nat)
  deriving DecidableEq, Repr

/-- The value of a hexadecimal digit. -/
def hexValue (c : Char) : Option Nat :=
  match digitValue c with
  | some d => if d < 16 then some d else none
  | none => none

/-- The character with a code, if there is one. -/
def charOfCode (n : Nat) : Option Char :=
  if n.isValidChar then some (Char.ofNat n) else none

/-- A text put together in reverse. -/
def ofReversed (cs : List Char) : String := String.ofList cs.reverse

end MmixBackend.Text
