import MmixBackend.Yaml.Scalar

/-!
# Tokens

Cuts a document into tokens. Blocks have no brackets in the text: their start and end are told by
indentation and become tokens of their own. A key is recognised only by the `:` behind it, so the
lexer remembers where a key may have started and inserts its tokens there later.

The result of the lexer is the list of tokens and, if it could not go on, the fault that stopped it.
-/

namespace MmixBackend.Yaml

/-- The kinds of tokens. -/
inductive TokenKind where
  | documentStart
  | documentEnd
  | streamEnd
  | blockSequenceStart
  | blockMappingStart
  | blockEnd
  | blockEntry
  | flowSequenceStart
  | flowSequenceEnd
  | flowMappingStart
  | flowMappingEnd
  | flowEntry
  | key
  | value
  | reference (name : String)
  | anchor (name : String)
  | tag (handle suffix : String)
  | scalar (style : Style) (text : String)
  deriving DecidableEq, Repr

/-- A token and the part of the document it stands for. -/
structure Token where
  kind : TokenKind
  start : Mark
  stop : Mark
  deriving DecidableEq, Repr

/-- A place where a key may have started. -/
structure KeyStart where
  /-- Whether nothing but a key can stand here. -/
  required : Bool
  /-- How many tokens come before the key. -/
  number : Nat
  mark : Mark

/-- The state of the lexer. -/
structure Lexer where
  cursor : Cursor
  tokens : Array Token := #[]
  /-- The columns of the open blocks, innermost first. -/
  indents : List Nat := []
  /-- The possible key at the current level of brackets. -/
  possibleKey : Option KeyStart := none
  /-- The possible keys at the outer levels of brackets. -/
  outerKeys : List (Option KeyStart) := []
  /-- Whether a key may start here. -/
  keyAllowed : Bool := true

namespace Lexer

/-- Whether the cursor is inside brackets. -/
def inFlow (lx : Lexer) : Bool := !lx.outerKeys.isEmpty

/-- The least column in which the content of the innermost block may stand. -/
def least (lx : Lexer) : Nat :=
  match lx.indents with
  | n :: _ => n + 1
  | [] => 0

/-- The column of the innermost block. -/
def indent (lx : Lexer) : Nat := lx.indents.headD 0

/-- The lexer with one more token. -/
def emit (lx : Lexer) (kind : TokenKind) (start stop : Mark) : Lexer :=
  { lx with tokens := lx.tokens.push ⟨kind, start, stop⟩ }

/-- The lexer behind a token of `n` characters. -/
def take (lx : Lexer) (kind : TokenKind) (n : Nat) : Lexer :=
  let stop := lx.cursor.drop n
  { lx.emit kind lx.cursor.mark stop.mark with cursor := stop }

/-- A fault at the cursor. -/
def fault {α : Type} (lx : Lexer) (cause : Cause) : Except Fault α := lx.cursor.fault cause

/-! ### Keys -/

/-- Whether a key that starts at a place can still be a key at another place: both are in one line
and not too far apart. -/
def KeyStart.reaches (k : KeyStart) (m : Mark) : Bool :=
  m.line ≤ k.mark.line && m.index ≤ k.mark.index + 1024

/-- Forgets keys that the cursor has left behind. -/
def dropStaleKeys (lx : Lexer) : Except Fault Lexer := do
  let keep (k : Option KeyStart) : Except Fault (Option KeyStart) :=
    match k with
    | none => .ok none
    | some k =>
      if KeyStart.reaches k lx.cursor.mark then .ok (some k)
      else if k.required then .error ⟨k.mark, .missingColon⟩
      else .ok none
  return { lx with possibleKey := ← keep lx.possibleKey, outerKeys := ← lx.outerKeys.mapM keep }

/-- Gives up the possible key at the current level. -/
def removeKey (lx : Lexer) : Except Fault Lexer :=
  match lx.possibleKey with
  | some k =>
    if k.required then .error ⟨k.mark, .missingColon⟩ else .ok { lx with possibleKey := none }
  | none => .ok lx

/-- Notes that a key may start at the cursor. -/
def saveKey (lx : Lexer) : Except Fault Lexer := do
  if lx.keyAllowed then
    -- In the column of the innermost block only another key of that block can follow.
    let required := !lx.inFlow && lx.indents.head? = some lx.cursor.mark.column
    let lx ← lx.removeKey
    return { lx with
      possibleKey := some { required, number := lx.tokens.size, mark := lx.cursor.mark } }
  else return lx

/-! ### Blocks -/

/-- Opens a block at a column that is deeper than the innermost block; its token is inserted behind
the first `number` tokens. -/
def openBlock (lx : Lexer) (kind : TokenKind) (mark : Mark) (number : Nat) : Lexer :=
  if !lx.inFlow && lx.least ≤ mark.column then
    { lx with
      indents := mark.column :: lx.indents
      tokens := lx.tokens.insertIdxIfInBounds number ⟨kind, mark, mark⟩ }
  else lx

/-- Closes the blocks in columns for which `closes` holds. -/
def closeBlocks (closes : Nat → Bool) (mark : Mark) (lx : Lexer) : Lexer :=
  if lx.inFlow then lx
  else
    let closed := lx.indents.takeWhile closes
    { lx with
      indents := lx.indents.dropWhile closes
      tokens := lx.tokens ++ closed.map fun _ =>
        { kind := .blockEnd, start := mark, stop := mark : Token } }

/-! ### Space between tokens -/

/-- The rest of a text behind blank space that ends in a comment, if it does. -/
def commentAhead? (mark : Mark) : List Char → Option Cursor
  | [] => none
  | c :: cs =>
    if c = '#' then some ⟨mark, c :: cs⟩
    else if isBlank c || isBreak c then commentAhead? (mark.after c) cs
    else none

/-- Skips a comment and the comments in the lines behind it, however these are indented. Line breaks
behind the last one are left. -/
def skipComments : (fuel : Nat) → Cursor → Cursor
  | 0, cur => cur
  | fuel + 1, cur =>
    match cur.rest with
    | '#' :: _ =>
      let cur := cur.skipWhile (! isBreak ·)
      match commentAhead? cur.mark cur.rest with
      | some next => skipComments fuel next
      | none => cur
    | _ => cur

/-- Skips blanks, comments and line breaks up to the next token. At the start of a line in a block
tabs are not skipped. -/
def skipSpace : (fuel : Nat) → Lexer → Lexer
  | 0, lx => lx
  | fuel + 1, lx =>
    let cur := match lx.cursor.rest with
      | c :: _ =>
        if lx.cursor.mark.column = 0 && c = byteOrderMark then lx.cursor.drop 1 else lx.cursor
      | [] => lx.cursor
    -- A tab before a possible key would be indentation, which is made of spaces only.
    let tabs := lx.inFlow || !lx.keyAllowed
    let cur := cur.skipWhile fun c => c = ' ' || (tabs && c = '\t')
    let cur := skipComments (cur.rest.length + 1) cur
    match cur.rest with
    | c :: _ =>
      -- Outside of brackets a new line may start with a key.
      if isBreak c then
        skipSpace fuel { lx with cursor := cur.drop 1, keyAllowed := lx.keyAllowed || !lx.inFlow }
      else { lx with cursor := cur }
    | [] => { lx with cursor := cur }

/-! ### Tokens -/

/-- Reads a document mark. -/
def readDocumentMark (lx : Lexer) (kind : TokenKind) : Except Fault Lexer := do
  let lx ← (lx.closeBlocks (fun _ => true) lx.cursor.mark).removeKey
  return { lx with keyAllowed := false }.take kind 3

/-- Reads an opening bracket. -/
def readOpening (lx : Lexer) (kind : TokenKind) : Except Fault Lexer := do
  let lx ← lx.saveKey
  return { lx with
    possibleKey := none, outerKeys := lx.possibleKey :: lx.outerKeys
    keyAllowed := true }.take kind 1

/-- Reads a closing bracket. -/
def readClosing (lx : Lexer) (kind : TokenKind) : Except Fault Lexer := do
  let lx ← lx.removeKey
  let lx := match lx.outerKeys with
    | k :: ks => { lx with possibleKey := k, outerKeys := ks }
    | [] => lx
  return { lx with keyAllowed := false }.take kind 1

/-- Reads a comma between brackets. -/
def readComma (lx : Lexer) : Except Fault Lexer := do
  let lx ← lx.removeKey
  return { lx with keyAllowed := true }.take .flowEntry 1

/-- Reads the `-` of an entry. -/
def readEntry (lx : Lexer) : Except Fault Lexer := do
  if !lx.inFlow && !lx.keyAllowed then lx.fault .entryNotAllowed
  let lx ← (lx.openBlock .blockSequenceStart lx.cursor.mark lx.tokens.size).removeKey
  return { lx with keyAllowed := true }.take .blockEntry 1

/-- Reads the `?` of a key. -/
def readKey (lx : Lexer) : Except Fault Lexer := do
  if !lx.inFlow && !lx.keyAllowed then lx.fault .keyNotAllowed
  let lx ← (lx.openBlock .blockMappingStart lx.cursor.mark lx.tokens.size).removeKey
  return { lx with keyAllowed := !lx.inFlow }.take .key 1

/-- Reads the `:` of a value. If it is behind a possible key, this is a key now. -/
def readValue (lx : Lexer) : Except Fault Lexer := do
  match lx.possibleKey with
  | some k =>
    let lx := { lx with tokens := lx.tokens.insertIdxIfInBounds k.number ⟨.key, k.mark, k.mark⟩ }
    -- The start of the block goes in front of the key that has just been inserted.
    let lx := lx.openBlock .blockMappingStart k.mark k.number
    return { lx with possibleKey := none, keyAllowed := false }.take .value 1
  | none =>
    if !lx.inFlow && !lx.keyAllowed then lx.fault .valueNotAllowed
    let lx := lx.openBlock .blockMappingStart lx.cursor.mark lx.tokens.size
    return { lx with keyAllowed := !lx.inFlow }.take .value 1

/-- Reads the name behind `&` or `*`. -/
def readName (lx : Lexer) (kind : String → TokenKind) : Except Fault Lexer := do
  let lx ← lx.saveKey
  let (name, cur) := (lx.cursor.drop 1).span isWordChar
  let ended := cur.atGap || match cur.rest with
    | c :: _ => ['?', ':', ',', ']', '}', '%', '@', '\x60'].contains c
    | [] => true
  if name.isEmpty || !ended then cur.fault .anchorName
  return { lx.emit (kind (String.ofList name)) lx.cursor.mark cur.mark with
    cursor := cur, keyAllowed := false }

/-- The characters of the text of a tag. -/
def isTagChar (c : Char) : Bool :=
  isWordChar c || [';', '/', '?', ':', '@', '&', '=', '+', '$', ',', '.', '!', '~', '*', '\'', '(', ')',
    '[', ']', '%'].contains c

/-- Reads a tag: `!<text>`, `!handle!suffix`, `!suffix` or `!` alone. -/
def readTag (lx : Lexer) : Except Fault Lexer := do
  let lx ← lx.saveKey
  let start := lx.cursor
  let (handle, suffix, cur) ← match start.rest with
    -- A text in angle brackets is taken as it is.
    | _ :: '<' :: _ => do
      let (text, cur) := (start.drop 2).span isTagChar
      match cur.rest with
      | '>' :: _ =>
        if text.isEmpty then cur.fault .tagText
        pure ([], text, cur.drop 1)
      | _ => cur.fault .tagText
    | _ => do
      let (word, cur) := (start.drop 1).span isWordChar
      match cur.rest with
      | '!' :: _ =>
        let (text, cur) := (cur.drop 1).span isTagChar
        if text.isEmpty then cur.fault .tagText
        pure ('!' :: word ++ ['!'], text, cur)
      | _ =>
        let (text, cur) := cur.span isTagChar
        let suffix := word ++ text
        pure (if suffix.isEmpty then ([], ['!'], cur) else (['!'], suffix, cur))
  if !cur.atGap then cur.fault .tagText
  let kind := TokenKind.tag (String.ofList handle) (String.ofList suffix)
  return { lx.emit kind start.mark cur.mark with cursor := cur, keyAllowed := false }

/-- Reads a block scalar. -/
def readBlockToken (lx : Lexer) (folds : Bool) : Except Fault Lexer := do
  let lx ← lx.removeKey
  let (text, cur) ← readBlockScalar folds lx.least lx.indent (lx.cursor.drop 1)
  return { lx.emit (.scalar .block text) lx.cursor.mark cur.mark with
    cursor := cur, keyAllowed := true }

/-- Reads a quoted scalar. -/
def readQuoted (lx : Lexer) (quote : Char) : Except Fault Lexer := do
  let lx ← lx.saveKey
  let inner := lx.cursor.drop 1
  let (text, cur) ←
    if quote = '"' then readDoubleQuoted [] .none .text inner.mark inner.rest
    else readSingleQuoted [] .none inner.mark inner.rest
  return { lx.emit (.scalar .quoted text) lx.cursor.mark cur.mark with
    cursor := cur, keyAllowed := false }

/-- Reads a plain scalar. -/
def readPlainToken (lx : Lexer) : Except Fault Lexer := do
  let lx ← lx.saveKey
  let p ← readPlain lx.inFlow lx.least [] .none lx.cursor.mark lx.cursor.rest
  return { lx.emit (.scalar .plain p.text) lx.cursor.mark p.cursor.mark with
    cursor := p.cursor, keyAllowed := p.newLine }

/-- The characters that cannot start a plain scalar, wherever they stand. -/
def isIndicator (c : Char) : Bool :=
  [',', '[', ']', '{', '}', '#', '&', '*', '!', '|', '>', '\'', '"', '%', '@', '\x60', '\t'].contains c

/-- Reads the token that starts with a character, at the cursor. -/
def readToken (lx : Lexer) (c : Char) (cs : List Char) : Except Fault Lexer :=
  let lineStart := lx.cursor.mark.column = 0
  if lineStart && c = '%' then lx.fault .missingDocumentStart
  else if lineStart && atDocumentMark (c :: cs) then
    lx.readDocumentMark (if c = '-' then .documentStart else .documentEnd)
  else if c = '[' then lx.readOpening .flowSequenceStart
  else if c = '{' then lx.readOpening .flowMappingStart
  else if c = ']' then lx.readClosing .flowSequenceEnd
  else if c = '}' then lx.readClosing .flowMappingEnd
  else if c = ',' then lx.readComma
  else if c = '-' && atGap cs then lx.readEntry
  else if c = '?' && (lx.inFlow || atGap cs) then lx.readKey
  else if c = ':' && (lx.inFlow || atGap cs) then lx.readValue
  else if c = '*' then lx.readName .reference
  else if c = '&' then lx.readName .anchor
  else if c = '!' then lx.readTag
  else if c = '|' && !lx.inFlow then lx.readBlockToken false
  else if c = '>' && !lx.inFlow then lx.readBlockToken true
  else if c = '\'' || c = '"' then lx.readQuoted c
  else if isIndicator c then lx.fault .unexpectedCharacter
  else lx.readPlainToken

/-- The place of the end of the document: a last line without end is ended. -/
def endMark (m : Mark) : Mark :=
  if m.column = 0 then m else { m with line := m.line + 1, column := 0 }

/-- Closes everything at the end of the document. -/
def finish (lx : Lexer) : Except Fault Lexer := do
  let mark := endMark lx.cursor.mark
  let lx ← (lx.closeBlocks (fun _ => true) mark).removeKey
  return lx.emit .streamEnd mark mark

/-- All tokens up to the end of the document or the first fault. Every token has at least one
character, so `fuel` is large enough if it exceeds the number of characters. -/
def run : (fuel : Nat) → Lexer → Array Token × Option Fault
  | 0, lx => (lx.tokens, some ⟨lx.cursor.mark, .tooDeep⟩)
  | fuel + 1, lx =>
    let before := lx.cursor.mark
    let spaced := skipSpace (lx.cursor.rest.length + 1) lx
    match spaced.dropStaleKeys with
    | .error f => (lx.tokens, some f)
    | .ok next =>
      -- What stands further left than a block ends it.
      let next := next.closeBlocks (next.cursor.mark.column < ·) before
      match next.cursor.rest with
      | [] =>
        match next.finish with
        | .error f => (next.tokens, some f)
        | .ok last => (last.tokens, none)
      | c :: cs =>
        match next.readToken c cs with
        | .error f => (next.tokens, some f)
        | .ok more => run fuel more

end Lexer

/-- The tokens of a document. -/
def tokens (cur : Cursor) : Array Token × Option Fault :=
  Lexer.run (cur.rest.length + 2) { cursor := cur }

end MmixBackend.Yaml
