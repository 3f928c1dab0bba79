import MmixBackend.Supply

/-!
# Frames and accesses

A frame describes the activation record of one function. Seen from the function, with addresses
growing upwards, it is laid out as follows.

    | parameters                |  FP + 8, FP + 16, …
    | static link               |  FP + 0
    +---------------------------+  FP, the caller's stack pointer
    | local variables           |  FP - 8, FP - 16, …
    | saved FP, return address  |
    | spill slots               |  added by register allocation
    | outgoing arguments        |  SP + 0, …
    +---------------------------+  SP

An access says where a variable, a parameter, a record component or a string constant lives.
-/

namespace MmixBackend

/-- The address where the stack starts; it grows downwards. -/
def stackTop : Word := 0x7FFFFFFFFFFFFFF8

/-- The address where static data and the heap start; they grow upwards. -/
def dataStart : Word := 0x2000000000000000

/-- The bytes that hold the caller's frame pointer and the return address. -/
def savedRegsSize : Word := 16

/-- The activation record of one function. -/
structure Frame where
  /-- The entry point of the function. -/
  label : Label
  /-- The static nesting depth, zero for global functions. -/
  depth : Word
  /-- The bytes of local variables. -/
  locsSize : Word
  /-- The bytes of the outgoing argument area, static link included. -/
  argsSize : Word
  /-- The temp that holds the frame pointer. -/
  fp : Temp
  /-- The temp that receives the return value. -/
  rv : Temp
  deriving DecidableEq, Inhabited, Repr

namespace Frame

/-- The bytes of the whole record, spill slots apart. -/
def size (f : Frame) : Word := f.locsSize + savedRegsSize + f.argsSize

/-- A frame with fresh temps for the frame pointer and the return value, taken in this order. -/
def fresh (label : Label) (depth locsSize argsSize : Word) : StateM Supply Frame := do
  let fp ← freshTemp
  let rv ← freshTemp
  return { label, depth, locsSize, argsSize, fp, rv }

/-- The one-line description of a frame. -/
def text (f : Frame) : String :=
  "FRAME(" ++ f.label ++ ",depth=" ++ f.depth.text ++ ",locs=" ++ f.locsSize.text
    ++ ",args=" ++ f.argsSize.text ++ ",size=" ++ f.size.text
    ++ ",FP=" ++ f.fp.text ++ ",RV=" ++ f.rv.text ++ ")"

end Frame

/-- A statically allocated block of memory: a global variable or a string constant. -/
structure StaticData where
  /-- The address of the block. -/
  label : Label
  /-- The bytes of the block. -/
  size : Word
  /-- The initial contents of a string constant: one word per byte, then a zero word. -/
  init : Option String
  deriving DecidableEq, Inhabited, Repr

/-- The bytes of a string constant: a word for each byte of the text and one for the end mark. -/
def stringSize (s : String) : Word := Int64.ofNat (s.utf8ByteSize + 1) * Word.byteSize

/-- Where a variable, a parameter or a record component lives. -/
inductive Access where
  /-- At a label. -/
  | static (data : StaticData)
  /-- At an offset from a frame pointer or from the start of a record. The depth is that of the
  declaring frame plus one, and zero for record components. -/
  | relative (size offset depth : Word)
  deriving DecidableEq, Inhabited, Repr

namespace Access

/-- The bytes of the entity. -/
def size : Access → Word
  | static data => data.size
  | relative size _ _ => size

end Access

end MmixBackend
