import MmixBackend.Source.Tree
import MmixBackend.Word
import Std.Data.TreeMap

/-!
# Types

A resolved type is a scalar, a pointer, an array, a record or a type name. Every scalar occupies one
word; arrays and records are laid out without gaps. A name refers to its declaration, and what it
stands for is kept apart in a table of definitions, so recursive types through pointers are finite
values.

The functions that follow names count down from the number of definitions. As soon as every cycle of
definitions passes through a pointer, no chain of names is longer than that.
-/

namespace MmixBackend

open Source (NodeId)

mutual

/-- Resolved types. -/
inductive Ty where
  | void | char | int | bool
  | ptr (base : Ty)
  | arr (len : Word) (elem : Ty)
  /-- A record; the number tells apart records with the same components. -/
  | record (id : NodeId) (fields : Fields)
  /-- A declared type. -/
  | named (decl : NodeId) (ident : String)
  deriving DecidableEq

/-- The components of a record in order. -/
inductive Fields where
  | nil
  | cons (name : String) (type : Ty) (rest : Fields)
  deriving DecidableEq

end

instance : Inhabited Ty := ⟨.void⟩

namespace Fields

/-- The names and types of the components. -/
def toList : Fields → List (String × Ty)
  | nil => []
  | cons name type rest => (name, type) :: rest.toList

/-- The components with the given names and types. -/
def ofList : List (String × Ty) → Fields
  | [] => nil
  | (name, type) :: rest => cons name type (ofList rest)

end Fields

/-- What the declared types stand for. -/
abbrev TypeDefs := Std.TreeMap NodeId Ty

mutual

/-- The text of a type; names are not unfolded. -/
def Ty.text : Ty → String
  | .void => "void"
  | .char => "char"
  | .int => "int"
  | .bool => "bool"
  | .ptr base => "^" ++ base.text
  | .arr len elem => "[" ++ len.text ++ "]" ++ elem.text
  | .record _ fields => "\x7b" ++ String.intercalate "," fields.texts ++ "\x7d"
  | .named _ ident => ident

/-- The texts of the components of a record. -/
def Fields.texts : Fields → List String
  | .nil => []
  | .cons name type rest => (name ++ ":" ++ type.text) :: rest.texts

end

/-! ### Sizes -/

mutual

/-- The bytes of a type, given those of the names in it. -/
def Ty.sizeWith (nameSize : NodeId → Word) : Ty → Word
  | .void | .char | .int | .bool | .ptr _ => Word.byteSize
  | .arr len elem => len * elem.sizeWith nameSize
  | .record _ fields => fields.sizeWith nameSize
  | .named decl _ => nameSize decl

/-- The bytes of the components of a record together. -/
def Fields.sizeWith (nameSize : NodeId → Word) : Fields → Word
  | .nil => 0
  | .cons _ type rest => type.sizeWith nameSize + rest.sizeWith nameSize

end

/-- The bytes of a name, following at most `fuel` definitions. -/
def TypeDefs.nameSize (defs : TypeDefs) : (fuel : Nat) → NodeId → Word
  | 0, _ => 0
  | fuel + 1, decl =>
    match defs[decl]? with
    | some t => t.sizeWith (defs.nameSize fuel)
    | none => 0

/-- The bytes of a type. -/
def Ty.size (defs : TypeDefs) (t : Ty) : Word := t.sizeWith (defs.nameSize (defs.size + 1))

/-! ### Unfolding names -/

/-- Replaces a name by what it stands for until there is none, at most `fuel` times. -/
def Ty.unfold (defs : TypeDefs) : (fuel : Nat) → Ty → Ty
  | fuel + 1, .named decl ident =>
    match defs[decl]? with
    | some t => t.unfold defs fuel
    | none => .named decl ident
  | _, t => t

/-- A type with the names around it stripped. -/
def Ty.actual (defs : TypeDefs) (t : Ty) : Ty := t.unfold defs (defs.size + 1)

/-! ### Finiteness -/

mutual

/-- Whether a type has a finite size, given which names have one. -/
def Ty.finiteWith (nameFinite : NodeId → Bool) : Ty → Bool
  | .void | .char | .int | .bool | .ptr _ => true
  | .arr _ elem => elem.finiteWith nameFinite
  | .record _ fields => fields.finiteWith nameFinite
  | .named decl _ => nameFinite decl

/-- Whether all components of a record have a finite size. -/
def Fields.finiteWith (nameFinite : NodeId → Bool) : Fields → Bool
  | .nil => true
  | .cons _ type rest => type.finiteWith nameFinite && rest.finiteWith nameFinite

end

/-- Whether a name has a finite size: following definitions, but not pointers, leads back neither to
it nor to one of the names in `visiting`. -/
def TypeDefs.nameFinite (defs : TypeDefs) : (fuel : Nat) → (visiting : List NodeId) → NodeId → Bool
  | 0, _, _ => false
  | fuel + 1, visiting, decl =>
    if visiting.contains decl then false
    else match defs[decl]? with
      | some t => t.finiteWith (defs.nameFinite fuel (decl :: visiting))
      | none => true

/-- Whether the type declared by `decl` has a finite size. -/
def TypeDefs.isFinite (defs : TypeDefs) (decl : NodeId) : Bool :=
  defs.nameFinite (defs.size + 2) [] decl

/-! ### Classes of types -/

namespace Ty

/-- Whether the type is `int` after stripping names. -/
def isInt (defs : TypeDefs) (t : Ty) : Bool := t.actual defs = .int

/-- Whether the type is `char` after stripping names. -/
def isChar (defs : TypeDefs) (t : Ty) : Bool := t.actual defs = .char

/-- Whether the type is `bool` after stripping names. -/
def isBool (defs : TypeDefs) (t : Ty) : Bool := t.actual defs = .bool

/-- Whether the type is `void` after stripping names. -/
def isVoid (defs : TypeDefs) (t : Ty) : Bool := t.actual defs = .void

/-- What the type points to, if it is a pointer after stripping names. -/
def pointee? (defs : TypeDefs) (t : Ty) : Option Ty :=
  match t.actual defs with
  | .ptr base => some base
  | _ => none

/-- Whether the type is a pointer after stripping names. -/
def isPtr (defs : TypeDefs) (t : Ty) : Bool := (t.pointee? defs).isSome

/-- Whether values of the type fit in a word and can be assigned. -/
def isScalar (defs : TypeDefs) (t : Ty) : Bool :=
  t.isInt defs || t.isChar defs || t.isBool defs || t.isPtr defs

/-- Whether values of the type can be cast. -/
def isCastable (defs : TypeDefs) (t : Ty) : Bool := t.isInt defs || t.isChar defs || t.isPtr defs

end Ty

end MmixBackend
