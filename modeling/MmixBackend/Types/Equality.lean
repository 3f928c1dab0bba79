import MmixBackend.Types.Basic

/-!
# Equality of types

Two types are equal if unfolding all names in them gives the same tree, which may be infinite. The
test compares the outermost constructors and puts the parts on a list of pairs still to be compared.
A pair that has been taken up before is not taken up again, so the test ends: the pairs consist of
parts of the two types and of the definitions.
-/

namespace MmixBackend

mutual

/-- The number of nodes of a type. -/
def Ty.nodeCount : Ty → Nat
  | .void | .char | .int | .bool | .named _ _ => 1
  | .ptr base => base.nodeCount + 1
  | .arr _ elem => elem.nodeCount + 1
  | .record _ fields => fields.nodeCount + 1

/-- The number of nodes of the components of a record. -/
def Fields.nodeCount : Fields → Nat
  | .nil => 0
  | .cons _ type rest => type.nodeCount + rest.nodeCount

end

/-- The number of nodes of all definitions. -/
def TypeDefs.nodeCount (defs : TypeDefs) : Nat := defs.foldl (fun n _ t => n + t.nodeCount) 0

namespace Ty

/-- The pairs of component types of two records with the same component names. -/
def matchFields : Fields → Fields → Option (List (Ty × Ty))
  | .nil, .nil => some []
  | .cons n t rest, .cons n' t' rest' =>
    if n = n' then (matchFields rest rest').map ((t, t') :: ·) else none
  | _, _ => none

/-- Compares the outermost constructors of two types without outer names; returns what remains to be
compared. -/
def matchTop : Ty → Ty → Option (List (Ty × Ty))
  | ptr a, ptr b => some [(a, b)]
  | arr n a, arr n' b => if n = n' then some [(a, b)] else none
  | record _ fields, record _ fields' => matchFields fields fields'
  | void, void | char, char | int, int | bool, bool => some []
  | named d _, named d' _ => if d = d' then some [] else none
  | _, _ => none

/-- Compares pairs of types, taking the pairs in `seen` for equal. -/
def equalPairs (defs : TypeDefs) : (fuel : Nat) → (seen pending : List (Ty × Ty)) → Bool
  | _, _, [] => true
  | 0, _, _ :: _ => false
  | fuel + 1, seen, (a, b) :: pending =>
    -- A pair met again lies on a cycle; it is equal unless another pair tells otherwise.
    if seen.contains (a, b) then equalPairs defs fuel seen pending
    else match matchTop (a.actual defs) (b.actual defs) with
      | some parts => equalPairs defs fuel ((a, b) :: seen) (parts ++ pending)
      | none => false

/-- Whether two types unfold to the same tree. -/
def equal (defs : TypeDefs) (a b : Ty) : Bool :=
  let n := a.nodeCount + b.nodeCount + defs.nodeCount + 1
  equalPairs defs (n * n * n + 1) [] [(a, b)]

/-- Whether a value of type `src` can be stored in a `dst`: the types are equal, or both are pointers
and one of them points to `void`. -/
def assignable (defs : TypeDefs) (dst src : Ty) : Bool :=
  equal defs dst src ||
    match dst.pointee? defs, src.pointee? defs with
    | some d, some s => d.isVoid defs || s.isVoid defs
    | _, _ => false

end Ty

end MmixBackend
