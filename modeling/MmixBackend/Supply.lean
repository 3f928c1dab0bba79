import MmixBackend.Word

/-!
# Temps and labels

A temp is an abstract register and a label names a code or data address. Passes that invent temps
and labels take them from a `Supply`, which counts how many it has handed out. The supply is passed
explicitly, so a pass is a function of the supply it starts from, and two passes that start from
different supplies differ by a renaming of what they invented.
-/

namespace MmixBackend

/-- An abstract register. -/
structure Temp where
  /-- The number that tells temps apart and orders them. -/
  index : Int
  deriving DecidableEq, Hashable, Inhabited, Repr

namespace Temp

instance : LT Temp := ⟨fun s t => s.index < t.index⟩

instance (s t : Temp) : Decidable (s < t) := inferInstanceAs (Decidable (s.index < t.index))

instance : Ord Temp := ⟨fun s t => compare s.index t.index⟩

/-- Temps are written `T1`, `T2`, … -/
def text (t : Temp) : String := "T" ++ toString t.index

end Temp

/-- A label is its own name. -/
abbrev Label := String

/-- The label of a global entity: its name behind an underscore. -/
def Label.global (name : String) : Label := "_" ++ name

/-- Counts the temps and labels handed out so far. -/
structure Supply where
  /-- The number of the last temp. -/
  temps : Int := 0
  /-- The number of the last anonymous label. -/
  labels : Int := 0
  deriving DecidableEq, Inhabited, Repr

namespace Supply

/-- The next temp, with the supply that has handed it out. -/
def takeTemp (s : Supply) : Temp × Supply :=
  (⟨s.temps + 1⟩, { s with temps := s.temps + 1 })

/-- The next anonymous label, with the supply that has handed it out. -/
def takeLabel (s : Supply) : Label × Supply :=
  ("L" ++ toString (s.labels + 1), { s with labels := s.labels + 1 })

end Supply

/-- Takes a fresh temp. -/
def freshTemp : StateM Supply Temp := modifyGet Supply.takeTemp

/-- Takes a fresh label. -/
def freshLabel : StateM Supply Label := modifyGet Supply.takeLabel

end MmixBackend
