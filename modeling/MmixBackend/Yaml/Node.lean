import MmixBackend.Yaml.Tag

/-!
# Nodes

The content of a document as a tree of scalars, sequences and mappings. A mapping keeps its entries in
order, with repeated keys. A reference to an anchor is a node of its own and knows the node it refers
to, unless it is part of that node.
-/

namespace MmixBackend.Yaml

mutual

/-- A node of a document and where it starts. -/
inductive Node where
  | scalar (mark : Mark) (tag : Tag) (style : Style) (text : String)
  | sequence (mark : Mark) (tag : Tag) (items : List Node)
  | mapping (mark : Mark) (tag : Tag) (entries : List Entry)
  | reference (mark : Mark) (anchor : String) (target : Option Node)

/-- An entry of a mapping. -/
inductive Entry where
  | mk (key value : Node)

end

instance : Inhabited Node := ⟨.reference {} "" none⟩

namespace Node

/-- Where a node starts. -/
def mark : Node → Mark
  | scalar m _ _ _ | sequence m _ _ | mapping m _ _ | reference m _ _ => m

/-- The text of a scalar; a reference has the name of its anchor. -/
def text : Node → String
  | scalar _ _ _ s => s
  | reference _ s _ => s
  | sequence _ _ _ | mapping _ _ _ => ""

/-- The tag of a node. -/
def tag : Node → Tag
  | scalar _ t _ _ | sequence _ t _ | mapping _ t _ => t
  | reference _ _ _ => .other ""

end Node

namespace Entry

/-- The key of an entry. -/
def key : Entry → Node
  | mk k _ => k

/-- The value of an entry. -/
def value : Entry → Node
  | mk _ v => v

end Entry

/-- The value of the last entry with a key. -/
def lastField? (key : String) (entries : List Entry) : Option Node :=
  (entries.reverse.find? fun e => e.key.text = key).map Entry.value

end MmixBackend.Yaml
