import MmixBackend.Text.Quoted

/-!
# Positions in a document

A document is read as a list of characters in which every line ends in a single character. `Mark` is
a place in the document, `Cursor` what is left of it together with the place where that starts. All
readers of the following modules take the characters one by one and count along with `Mark.after`.
-/

namespace MmixBackend.Yaml

/-- A place in the document; everything is counted from zero. -/
structure Mark where
  /-- The number of characters before it. -/
  index : Nat := 0
  line : Nat := 0
  column : Nat := 0
  deriving DecidableEq, Inhabited, Repr

/-- Why a text is not a document. -/
inductive Cause where
  | controlCharacter
  | tabIndentation
  | missingColon
  | keyNotAllowed
  | valueNotAllowed
  | entryNotAllowed
  | unexpectedCharacter
  | unclosedQuotes
  | documentInQuotes
  | unknownEscape
  | escapeCode
  | blockHeader
  | anchorName
  | tagText
  | undefinedHandle
  | missingNode
  | missingKey
  | missingEntry
  | missingSeparator
  | missingDocumentStart
  | unknownAnchor (name : String)
  | tooDeep
  deriving DecidableEq, Repr

/-- The wording of a cause. -/
def Cause.message : Cause → String
  | controlCharacter => "control characters are not allowed"
  | tabIndentation => "found a tab character that violates indentation"
  | missingColon => "could not find expected ':'"
  | keyNotAllowed => "mapping keys are not allowed in this context"
  | valueNotAllowed => "mapping values are not allowed in this context"
  | entryNotAllowed => "block sequence entries are not allowed in this context"
  | unexpectedCharacter => "found character that cannot start any token"
  | unclosedQuotes => "found unexpected end of stream"
  | documentInQuotes => "found unexpected document indicator"
  | unknownEscape => "found unknown escape character"
  | escapeCode => "found invalid character escape code"
  | blockHeader => "did not find expected comment or line break"
  | anchorName => "did not find expected alphabetic or numeric character"
  | tagText => "did not find expected tag"
  | undefinedHandle => "found undefined tag handle"
  | missingNode => "did not find expected node content"
  | missingKey => "did not find expected key"
  | missingEntry => "did not find expected '-' indicator"
  | missingSeparator => "did not find expected ',' or closing bracket"
  | missingDocumentStart => "did not find expected document start"
  | unknownAnchor name => "unknown anchor " ++ Text.quoted name ++ " referenced"
  | tooDeep => "exceeded the nesting limit"

/-- An error and where it was noticed. -/
structure Fault where
  mark : Mark
  cause : Cause
  deriving DecidableEq, Repr

/-- The text of an error. -/
def Fault.message (f : Fault) : String :=
  "line " ++ toString (f.mark.line + 1) ++ ": " ++ f.cause.message

/-! ### Characters -/

/-- Spaces and tabs. -/
def isBlank (c : Char) : Bool := c = ' ' ∨ c = '\t'

/-- The characters that end a line. -/
def isBreak (c : Char) : Bool := c = '\n' ∨ c = '\u2028' ∨ c = '\u2029'

/-- The characters of anchors and tag handles. -/
def isWordChar (c : Char) : Bool := c.isAlphanum ∨ c = '_' ∨ c = '-'

/-- The byte order mark. -/
def byteOrderMark : Char := '\ufeff'

/-- Whether a character may stand in a document. -/
def isAllowed (c : Char) : Bool :=
  let n := c.toNat
  n = 0x09 ∨ n = 0x0a ∨ n = 0x0d ∨ (0x20 ≤ n ∧ n ≤ 0x7e) ∨ n = 0x85 ∨ (0xa0 ≤ n ∧ n ≤ 0xfffd)
    ∨ 0x10000 ≤ n

/-- Whether a text is at its end or goes on with a blank or a line break. -/
def atGap : List Char → Bool
  | [] => true
  | c :: _ => isBlank c || isBreak c

/-- Whether a line starts with the mark of a document's start or end. -/
def atDocumentMark : List Char → Bool
  | '-' :: '-' :: '-' :: cs => atGap cs
  | '.' :: '.' :: '.' :: cs => atGap cs
  | _ => false

/-- Writes every line end that is not a separator of its own as a single line feed. -/
def unifyLineEnds : List Char → List Char
  | '\r' :: '\n' :: cs => '\n' :: unifyLineEnds cs
  | c :: cs => (if c = '\r' ∨ c = '\u0085' then '\n' else c) :: unifyLineEnds cs
  | [] => []

/-! ### Cursors -/

/-- The place behind a character. -/
def Mark.after (m : Mark) (c : Char) : Mark :=
  if isBreak c then { index := m.index + 1, line := m.line + 1, column := 0 }
  else { m with index := m.index + 1, column := m.column + 1 }

/-- What is left of a document and where it starts. -/
structure Cursor where
  mark : Mark := {}
  rest : List Char
  deriving Inhabited

namespace Cursor

/-- The cursor behind the next characters. -/
def drop (n : Nat) (cur : Cursor) : Cursor :=
  { mark := (cur.rest.take n).foldl Mark.after cur.mark, rest := cur.rest.drop n }

/-- The longest run of characters with a property, and the cursor behind it. -/
def span (p : Char → Bool) (cur : Cursor) : List Char × Cursor :=
  let run := cur.rest.takeWhile p
  (run, { mark := run.foldl Mark.after cur.mark, rest := cur.rest.dropWhile p })

/-- The cursor behind the longest run of characters with a property. -/
def skipWhile (p : Char → Bool) (cur : Cursor) : Cursor := (cur.span p).2

/-- Whether the cursor is at the end, before a blank or before a line break. -/
def atGap (cur : Cursor) : Bool := Yaml.atGap cur.rest

/-- An error at the cursor. -/
def fault {α : Type} (cur : Cursor) (cause : Cause) : Except Fault α := .error ⟨cur.mark, cause⟩

end Cursor

/-- The cursor at the start of a text. A byte order mark in front is not counted. -/
def Cursor.ofText (s : String) : Except Fault Cursor :=
  let cs := match s.toList with
    | c :: cs => if c = byteOrderMark then cs else c :: cs
    | [] => []
  if cs.all isAllowed then .ok { rest := unifyLineEnds cs }
  else .error ⟨{}, .controlCharacter⟩

end MmixBackend.Yaml
