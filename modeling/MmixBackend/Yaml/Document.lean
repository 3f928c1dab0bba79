import MmixBackend.Yaml.Node
import MmixBackend.Yaml.Token

/-!
# Documents

Builds the node of the first document of a text from its tokens. The reader looks up to two tokens
ahead of the one it decides on, so a fault of the lexer is noticed that early; what comes later is
not looked at.
-/

namespace MmixBackend.Yaml

/-- What is known while the nodes of a document are read. -/
structure Reading where
  /-- The tokens still to be read. -/
  tokens : List Token
  /-- What stopped the lexer behind the last token. -/
  stopped : Option Fault
  /-- The anchors seen so far and their nodes, as far as these are complete. -/
  anchors : Array (String × Option Node) := #[]

/-- A reader of nodes. -/
abbrev NodeReader := StateT Reading (Except Fault)

namespace NodeReader

/-- An error. -/
def fail {α : Type} (mark : Mark) (cause : Cause) : NodeReader α :=
  fun _ => .error ⟨mark, cause⟩

/-- The next token. -/
def peek : NodeReader Token := do
  let r ← get
  match r.stopped, r.tokens with
  | none, t :: _ => return t
  -- With two more tokens behind it the next one is out of reach of the fault.
  | some _, t :: _ :: _ :: _ => return t
  | some f, _ => throw f
  | none, [] => fail {} .missingNode

/-- Goes behind the next token. -/
def skip : NodeReader Unit := modify fun r => { r with tokens := r.tokens.tail }

/-- The token behind the next one. -/
def skipPeek : NodeReader Token := do
  skip
  peek

/-- A node that is not there. -/
def emptyNode (mark : Mark) : Node := .scalar mark .null .plain ""

/-- What may be written in front of a node. -/
structure Properties where
  start : Option Mark := none
  anchor : Option String := none
  tag : Option String := none

/-- The text of a tag whose handle is resolved. -/
def tagText (mark : Mark) (handle suffix : String) : NodeReader String :=
  if handle = "" then return suffix
  else if handle = "!" then return "!" ++ suffix
  else if handle = "!!" then return Tag.standardStart ++ suffix
  else fail mark .undefinedHandle

/-- Reads an anchor or a tag, if one follows that is not there yet. -/
def readProperty (p : Properties) : NodeReader Properties := do
  let t ← peek
  let start := some (p.start.getD t.start)
  match t.kind, p.anchor, p.tag with
  | .anchor name, none, _ =>
    skip
    return { p with start, anchor := some name }
  | .tag handle suffix, _, none =>
    let text ← tagText t.start handle suffix
    skip
    return { p with start, tag := some text }
  | _, _, _ => return p

/-- The tag of a collection. -/
def collectionTag (p : Properties) (implied : Tag) : Tag :=
  match p.tag with
  | none => implied
  | some "!" => implied
  | some text => .ofText text

/-- The tag of a scalar. -/
def scalarTag (p : Properties) (style : Style) (text : String) : Tag :=
  let implied := if style = .plain then implicitTag text else .str
  match p.tag with
  | none => implied
  | some "!" => implied
  | some t => .ofText t

/-- Reads a node behind its properties and notes its anchor. The anchor is known inside the node, but
refers to it only afterwards. -/
def anchored (p : Properties) (content : NodeReader Node) : NodeReader Node :=
  match p.anchor with
  | none => content
  | some name => do
    let position := (← get).anchors.size
    modify fun r => { r with anchors := r.anchors.push (name, none) }
    let n ← content
    modify fun r => { r with anchors := r.anchors.setIfInBounds position (name, some n) }
    return n

/-- Where nodes stand. -/
structure Place where
  /-- Whether blocks may stand here. -/
  block : Bool
  /-- Whether a sequence may stand here whose entries are not indented. -/
  unindented : Bool

mutual

/-- Reads a node. -/
def readNode (place : Place) : (fuel : Nat) → NodeReader Node
  | 0 => do fail (← peek).start .tooDeep
  | fuel + 1 => do
    let first ← peek
    match first.kind with
    | .reference name =>
      match (← get).anchors.toList.reverse.lookup name with
      | some target =>
        skip
        return .reference first.start name target
      | none => fail first.start (.unknownAnchor name)
    | _ =>
      -- An anchor and a tag may stand in either order.
      let p ← readProperty (← readProperty {})
      anchored p do
      let t ← peek
      let mark := p.start.getD t.start
      let sequence (items : NodeReader (List Node)) : NodeReader Node := do
        return .sequence mark (collectionTag p .seq) (← items)
      let mapping (entries : NodeReader (List Entry)) : NodeReader Node := do
        return .mapping mark (collectionTag p .map) (← entries)
      match t.kind, place.block, place.unindented with
      | .blockEntry, _, true => sequence (readUnindented fuel)
      | .scalar style text, _, _ =>
        skip
        return .scalar mark (scalarTag p style text) style text
      | .flowSequenceStart, _, _ => sequence do skip; readFlowSequence true fuel
      | .flowMappingStart, _, _ => mapping do skip; readFlowMapping true fuel
      | .blockSequenceStart, true, _ => sequence do skip; readBlockSequence fuel
      | .blockMappingStart, true, _ => mapping do skip; readBlockMapping fuel
      | _, _, _ =>
        -- Properties alone make an empty scalar.
        if p.anchor.isSome || p.tag.isSome then return .scalar mark (scalarTag p .plain "") .plain ""
        else fail t.start .missingNode

/-- Reads the entries of a block sequence. -/
def readBlockSequence : (fuel : Nat) → NodeReader (List Node)
  | 0 => do fail (← peek).start .tooDeep
  | fuel + 1 => do
    let t ← peek
    match t.kind with
    | .blockEntry =>
      let next ← skipPeek
      let item ← match next.kind with
        | .blockEntry | .blockEnd => pure (emptyNode t.stop)
        | _ => readNode ⟨true, false⟩ fuel
      return item :: (← readBlockSequence fuel)
    | .blockEnd =>
      skip
      return []
    | _ => fail t.start .missingEntry

/-- Reads the entries of a sequence that is not indented. -/
def readUnindented : (fuel : Nat) → NodeReader (List Node)
  | 0 => do fail (← peek).start .tooDeep
  | fuel + 1 => do
    let t ← peek
    match t.kind with
    | .blockEntry =>
      let next ← skipPeek
      let item ← match next.kind with
        | .blockEntry | .key | .value | .blockEnd => pure (emptyNode t.stop)
        | _ => readNode ⟨true, false⟩ fuel
      return item :: (← readUnindented fuel)
    | _ => return []

/-- Reads the entries of a block mapping. -/
def readBlockMapping : (fuel : Nat) → NodeReader (List Entry)
  | 0 => do fail (← peek).start .tooDeep
  | fuel + 1 => do
    let t ← peek
    match t.kind with
    | .key =>
      let next ← skipPeek
      let key ← match next.kind with
        | .key | .value | .blockEnd => pure (emptyNode t.stop)
        | _ => readNode ⟨true, true⟩ fuel
      let value ← readBlockValue fuel
      return .mk key value :: (← readBlockMapping fuel)
    | .blockEnd =>
      skip
      return []
    | _ => fail t.start .missingKey

/-- Reads the value of an entry of a block mapping. -/
def readBlockValue : (fuel : Nat) → NodeReader Node
  | 0 => do fail (← peek).start .tooDeep
  | fuel + 1 => do
    let t ← peek
    match t.kind with
    | .value =>
      let next ← skipPeek
      match next.kind with
      | .key | .value | .blockEnd => return emptyNode t.stop
      | _ => readNode ⟨true, true⟩ fuel
    | _ => return emptyNode t.start

/-- Reads the items of a sequence in brackets. An item that is a key is a mapping with one entry. -/
def readFlowSequence (first : Bool) : (fuel : Nat) → NodeReader (List Node)
  | 0 => do fail (← peek).start .tooDeep
  | fuel + 1 => do
    let t ← peek
    match t.kind, first with
    | .flowSequenceEnd, _ =>
      skip
      return []
    | .flowEntry, false =>
      let next ← skipPeek
      if next.kind = .flowSequenceEnd then
        skip
        return []
      else readFlowItems next fuel
    | _, true => readFlowItems t fuel
    | _, false => fail t.start .missingSeparator

/-- Reads an item that starts with a token and the items behind it. -/
def readFlowItems (t : Token) : (fuel : Nat) → NodeReader (List Node)
  | 0 => fail t.start .tooDeep
  | fuel + 1 => do
    let item ← match t.kind with
      | .key => do
        skip
        let key ← readFlowPairKey fuel
        let value ← readFlowPairValue fuel
        pure (.mapping t.start .map [.mk key value])
      | _ => readNode ⟨false, false⟩ fuel
    return item :: (← readFlowSequence false fuel)

/-- Reads the key of an item of a sequence. If it is missing, the token in its place is skipped. -/
def readFlowPairKey : (fuel : Nat) → NodeReader Node
  | 0 => do fail (← peek).start .tooDeep
  | fuel + 1 => do
    let t ← peek
    match t.kind with
    | .value | .flowEntry | .flowSequenceEnd =>
      skip
      return emptyNode t.stop
    | _ => readNode ⟨false, false⟩ fuel

/-- Reads the value of an item of a sequence. -/
def readFlowPairValue : (fuel : Nat) → NodeReader Node
  | 0 => do fail (← peek).start .tooDeep
  | fuel + 1 => do
    let t ← peek
    match t.kind with
    | .value =>
      let next ← skipPeek
      match next.kind with
      | .flowEntry | .flowSequenceEnd => return emptyNode t.start
      | _ => readNode ⟨false, false⟩ fuel
    | _ => return emptyNode t.start

/-- Reads the entries of a mapping in braces. -/
def readFlowMapping (first : Bool) : (fuel : Nat) → NodeReader (List Entry)
  | 0 => do fail (← peek).start .tooDeep
  | fuel + 1 => do
    let t ← peek
    match t.kind, first with
    | .flowMappingEnd, _ =>
      skip
      return []
    | .flowEntry, false =>
      let next ← skipPeek
      if next.kind = .flowMappingEnd then
        skip
        return []
      else readFlowEntries next fuel
    | _, true => readFlowEntries t fuel
    | _, false => fail t.start .missingSeparator

/-- Reads an entry that starts with a token and the entries behind it. A node alone is a key without
value. -/
def readFlowEntries (t : Token) : (fuel : Nat) → NodeReader (List Entry)
  | 0 => fail t.start .tooDeep
  | fuel + 1 => do
    match t.kind with
    | .key =>
      let next ← skipPeek
      let key ← match next.kind with
        | .value | .flowEntry | .flowMappingEnd => pure (emptyNode next.start)
        | _ => readNode ⟨false, false⟩ fuel
      let value ← readFlowValue fuel
      return .mk key value :: (← readFlowMapping false fuel)
    | _ =>
      let key ← readNode ⟨false, false⟩ fuel
      let value := emptyNode (← peek).start
      return .mk key value :: (← readFlowMapping false fuel)

/-- Reads the value of an entry of a mapping in braces. -/
def readFlowValue : (fuel : Nat) → NodeReader Node
  | 0 => do fail (← peek).start .tooDeep
  | fuel + 1 => do
    let t ← peek
    match t.kind with
    | .value =>
      let next ← skipPeek
      match next.kind with
      | .flowEntry | .flowMappingEnd => return emptyNode next.start
      | _ => readNode ⟨false, false⟩ fuel
    | _ => return emptyNode t.start

end

/-- Reads the first document, if there is one. Its end is looked at as well. -/
def readDocument (fuel : Nat) : NodeReader (Option Node) := do
  let t ← peek
  match t.kind with
  | .streamEnd => return none
  | .documentStart =>
    let next ← skipPeek
    let root ← match next.kind with
      | .documentStart | .documentEnd | .streamEnd => pure (emptyNode next.start)
      | _ => readNode ⟨true, false⟩ fuel
    let _ ← peek
    return some root
  | _ =>
    let root ← readNode ⟨true, false⟩ fuel
    let _ ← peek
    return some root

end NodeReader

/-- The root of the first document of a text. A text without content has no document. Every second
call of a reader goes behind a token, so the number of tokens bounds their nesting. -/
def readDocument? (s : String) : Except Fault (Option Node) := do
  let cur ← Cursor.ofText s
  let (ts, stopped) := tokens cur
  let (root, _) ← (NodeReader.readDocument (4 * ts.size + 8)).run { tokens := ts.toList, stopped }
  return root

end MmixBackend.Yaml
