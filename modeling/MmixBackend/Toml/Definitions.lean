import MmixBackend.Toml.Document

/-!
# Definitions of a TOML document

Everything in a document may be defined only once. A table may be opened by one header, and a header
may go below tables that were only passed through; tables made by dotted keys are closed for headers,
and tables with a header of their own are closed for dotted keys. An array of tables starts an empty
table with every header.
-/

namespace MmixBackend.Toml

/-- The kinds of definitions. -/
inductive DefKind where
  | value
  | table
  | tableArray
  deriving DecidableEq

/-- A definition and what is defined below it. -/
inductive Def where
  | mk (name : String) (kind : DefKind) (closed dotted : Bool) (below : List Def)

namespace Def

/-- The name that is defined. -/
def name : Def → String
  | mk n _ _ _ _ => n

mutual

/-- Closes the tables made by dotted keys in a definition. -/
def close : Def → Def
  | mk n kind closed dotted below => mk n kind (closed || dotted) false (closeAll below)

/-- Closes the tables made by dotted keys in definitions. -/
def closeAll : List Def → List Def
  | [] => []
  | d :: ds => d.close :: closeAll ds

end

/-- Changes the definition with a name, or adds one. -/
def change (name : String) (f : Option Def → Option Def) : List Def → Option (List Def)
  | [] => (f none).map ([·])
  | d :: ds =>
    if d.name = name then (f (some d)).map (· :: ds) else (change name f ds).map (d :: ·)

/-- Adds what a pair defines. -/
def addPair : Key → List Def → Option (List Def)
  | [], ds => some ds
  | [k], ds => change k (fun
    | none => some (mk k .value false true [])
    | some _ => none) ds
  | k :: ks, ds => change k (fun
    | none => (addPair ks []).map (mk k .table false true ·)
    | some (mk n kind closed dotted below) =>
      if kind ≠ .table || closed then none
      else (addPair ks below).map (mk n kind closed dotted ·)) ds

/-- Adds what the header of a table defines. -/
def addTable : Key → List Def → Option (List Def)
  | [], ds => some ds
  | [k], ds => change k (fun
    | none => some (mk k .table true false [])
    | some (mk n kind closed dotted below) =>
      if kind ≠ .table || closed then none else some (mk n kind true dotted below)) ds
  | k :: ks, ds => change k (fun
    | none => (addTable ks []).map (mk k .table false false ·)
    | some (mk n kind closed dotted below) =>
      if kind = .value then none else (addTable ks below).map (mk n kind closed dotted ·)) ds

/-- Adds what the header of an element defines. -/
def addElement : Key → List Def → Option (List Def)
  | [], ds => some ds
  | [k], ds => change k (fun
    | none => some (mk k .tableArray true false [])
    | some (mk n kind closed dotted _) =>
      -- The next element starts with nothing defined.
      if kind ≠ .tableArray then none else some (mk n kind closed dotted [])) ds
  | k :: ks, ds => change k (fun
    | none => (addElement ks []).map (mk k .table false false ·)
    | some (mk n kind closed dotted below) =>
      if kind = .value then none else (addElement ks below).map (mk n kind closed dotted ·)) ds

/-- Changes the definitions below a table that is already defined. -/
def within (f : List Def → Option (List Def)) : Key → List Def → Option (List Def)
  | [], ds => f ds
  | k :: ks, ds => change k (fun
    | none => none
    | some (mk n kind closed dotted ds) => (within f ks ds).map (mk n kind closed dotted ·)) ds

end Def

mutual

/-- Whether the keys of every table inside a value are defined once. -/
def Value.wellDefined : Value → Bool
  | .array items => Value.allWellDefined items
  | .table pairs => Pair.wellDefined [] pairs
  | _ => true

/-- Whether the keys of every table inside values are defined once. -/
def Value.allWellDefined : List Value → Bool
  | [] => true
  | v :: vs => v.wellDefined && Value.allWellDefined vs

/-- Whether pairs define their keys once, besides given definitions. -/
def Pair.wellDefined (ds : List Def) : List Pair → Bool
  | [] => true
  | .mk k v :: rest =>
    match Def.addPair k ds with
    | none => false
    | some ds => v.wellDefined && Pair.wellDefined ds rest

end

/-- Whether items, with pairs in the table `current`, define everything once, besides given
definitions. -/
def wellDefinedFrom (ds : List Def) (current : Key) : List Item → Bool
  | [] => true
  | .pair (.mk k v) :: rest =>
    match Def.within (Def.addPair k) current ds with
    | none => false
    | some ds => v.wellDefined && wellDefinedFrom ds current rest
  | .table k :: rest =>
    match Def.within (some ∘ Def.closeAll) current ds with
    | none => false
    | some ds =>
      match Def.addTable k ds with
      | none => false
      | some ds => wellDefinedFrom ds k rest
  | .element k :: rest =>
    match Def.within (some ∘ Def.closeAll) current ds with
    | none => false
    | some ds =>
      match Def.addElement k ds with
      | none => false
      | some ds => wellDefinedFrom ds k rest

/-- Whether the items of a document define everything once. -/
def wellDefined (items : List Item) : Bool := wellDefinedFrom [] [] items

end MmixBackend.Toml
