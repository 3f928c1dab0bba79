import MmixBackend.Instr.TempSet
import Std.Data.TreeMap

/-!
# Instruction templates

The text of an instruction is a template. A backquote starts a slot: `s0`, `s1`, … stand for the
temps that the instruction uses, `d0`, `d1`, … for the temps that it defines, and `w` for the
register window of a call, whose number is known once the number of registers is fixed. A backquote
at the end of the text stands for itself. A slot without a matching temp is shown with its kind, its
index and a question mark, so that nothing is lost.

Templates are read byte by byte: a slot kind outside the ASCII range is the first byte of its
character, and the bytes that are left over are shown as replacement characters.
-/

namespace MmixBackend

/-- A part of a template. -/
inductive Piece where
  /-- A character that stands for itself. -/
  | char (c : Char)
  /-- The register window of a call. -/
  | window
  /-- A used temp. -/
  | use (i : Nat)
  /-- A defined temp. -/
  | define (i : Nat)
  /-- A slot that names no temp. -/
  | malformed (kind : Char) (index : Nat)
  deriving DecidableEq, Repr

namespace Piece

/-- The character that starts a slot. -/
def slotMark : Char := Char.ofNat 0x60

/-- The largest index a slot can have. -/
def maxIndex : Nat := Word.bound - 1

/-- The piece for a slot kind and the index behind it, if there is one. -/
def ofSlot (kind : Char) : Option Nat → Piece
  | none => malformed kind 0
  | some n =>
    if maxIndex < n then malformed kind maxIndex
    else if kind = 's' then use n
    else if kind = 'd' then define n
    else malformed kind n

/-- Where the reader of a template stands. -/
inductive Reading where
  /-- Outside of slots. -/
  | text
  /-- Behind a slot mark. -/
  | mark
  /-- Behind a slot kind and the digits of the index so far. -/
  | slot (kind : Char) (index : Option Nat)

/-- The pieces of a slot whose kind is not an ASCII character. -/
def foreignSlot (c : Char) : List Piece :=
  match c.toString.toUTF8.toList with
  | [] => []
  | b :: bs => malformed (Char.ofNat b.toNat) 0 :: bs.map fun _ => char (Char.ofNat 0xFFFD)

/-- Splits a template into its pieces. -/
def read : Reading → List Char → List Piece
  | .text, [] => []
  | .text, c :: cs => if c = slotMark then read .mark cs else char c :: read .text cs
  | .mark, [] => [char slotMark]
  | .mark, c :: cs =>
    if c = 'w' then window :: read .text cs
    else if c.toNat < 0x80 then read (.slot c none) cs
    else foreignSlot c ++ read .text cs
  | .slot kind index, [] => [ofSlot kind index]
  | .slot kind index, c :: cs =>
    if c.isDigit then read (.slot kind (some (index.getD 0 * 10 + (c.toNat - '0'.toNat)))) cs
    else if c = slotMark then ofSlot kind index :: read .mark cs
    else ofSlot kind index :: char c :: read .text cs

/-- The pieces of a template text. -/
def ofTemplate (template : String) : List Piece := read .text template.toList

end Piece

/-- How temps and the call window are shown: temps with a register by its number, others by name. -/
structure Registers where
  /-- The registers of temps. -/
  colors : Std.TreeMap Temp Int := ∅
  /-- The register window; a negative number leaves the window slot as it is. -/
  window : Int := -1

namespace Registers

/-- The written form of a temp. -/
def name (regs : Registers) (t : Temp) : String :=
  match regs.colors[t]? with
  | some c => "$" ++ toString c
  | none => t.text

/-- The written form of the slot of a temp. -/
def slot (regs : Registers) (kind : String) (temps : List Temp) (i : Nat) : String :=
  match temps[i]? with
  | some t => regs.name t
  | none => Piece.slotMark.toString ++ kind ++ toString i ++ "?"

/-- The written form of a piece of a template with the given uses and definitions. -/
def piece (regs : Registers) (uses defs : List Temp) : Piece → String
  | .char c => c.toString
  | .window =>
    if regs.window < 0 then Piece.slotMark.toString ++ "w" else "$" ++ toString regs.window
  | .use i => regs.slot "s" uses i
  | .define i => regs.slot "d" defs i
  | .malformed kind index =>
    Piece.slotMark.toString ++ kind.toString ++ toString index ++ "?"

/-- Expands a template. -/
def expand (regs : Registers) (template : String) (uses defs : List Temp) : String :=
  String.join ((Piece.ofTemplate template).map (regs.piece uses defs))

end Registers

end MmixBackend
