import MmixBackend.Text.Escape
import MmixBackend.Yaml.Cursor

/-!
# Scalars

The four ways to write a text: plain, between apostrophes, between quotation marks, and as a block of
lines after `|` or `>`. Each reader is a structural recursion over the characters of the document.

Line breaks inside plain and quoted scalars are folded: a single one becomes a space, and of several
the first one is dropped. `Gap` holds the blank space whose fate is decided by what follows it.
-/

namespace MmixBackend.Yaml

open Text (ofReversed hexValue charOfCode)

/-- How a scalar is written. -/
inductive Style where
  | plain
  | quoted
  | block
  deriving DecidableEq, Repr

/-- Blank space inside a scalar; everything is listed in reverse. -/
inductive Gap where
  | none
  /-- Blanks within a line. -/
  | blanks (cs : List Char)
  /-- Line breaks: the first one, unless it was escaped, and the following ones. -/
  | breaks (first : Option Char) (more : List Char)

namespace Gap

/-- The gap with one more blank; blanks at the start of a line do not count. -/
def addBlank (c : Char) : Gap → Gap
  | none => blanks [c]
  | blanks cs => blanks (c :: cs)
  | breaks first more => breaks first more

/-- The gap with one more line break; blanks at the end of a line do not count. -/
def addBreak (c : Char) : Gap → Gap
  | none => breaks (some c) []
  | blanks _ => breaks (some c) []
  | breaks first more => breaks first (c :: more)

/-- The gap with one more blank or line break. -/
def add (c : Char) (g : Gap) : Gap := if isBreak c then g.addBreak c else g.addBlank c

/-- What is written for a gap, in reverse. -/
def folded : Gap → List Char
  | none => []
  | blanks cs => cs
  | breaks Option.none more => more
  | breaks (some '\n') [] => [' ']
  | breaks (some '\n') more => more
  | breaks (some c) more => more ++ [c]

/-- Whether the gap is more than nothing. -/
def isOpen : Gap → Bool
  | none => false
  | _ => true

/-- Whether the gap has a line break. -/
def hasBreak : Gap → Bool
  | breaks _ _ => true
  | _ => false

end Gap

/-! ### Plain scalars -/

/-- A plain scalar that has been read. -/
structure PlainScalar where
  text : String
  /-- Whether the cursor has moved to another line behind the text. -/
  newLine : Bool
  cursor : Cursor

/-- Whether a plain scalar ends before a character. -/
def endsPlain (flow : Bool) (c : Char) (cs : List Char) : Bool :=
  (c = ':' && atGap cs)
    || (flow && (c = ',' || c = '?' || c = '[' || c = ']' || c = '{' || c = '}'))

/-- Reads on in a plain scalar. `least` is the least column in which it may go on in a later line. -/
def readPlain (flow : Bool) (least : Nat) (text : List Char) (gap : Gap) (mark : Mark) :
    List Char → Except Fault PlainScalar
  | [] => .ok ⟨ofReversed text, gap.hasBreak, ⟨mark, []⟩⟩
  | c :: cs =>
    if isBlank c || isBreak c then
      if gap.hasBreak && c = '\t' && mark.column < least then .error ⟨mark, .tabIndentation⟩
      else readPlain flow least text (gap.add c) (mark.after c) cs
    else
      -- Behind a gap the scalar goes on unless something else starts here.
      let outdented := !flow && mark.column < least
      let marked := mark.column = 0 && atDocumentMark (c :: cs)
      if (gap.isOpen && (outdented || marked || c = '#')) || endsPlain flow c cs then
        .ok ⟨ofReversed text, gap.hasBreak, ⟨mark, c :: cs⟩⟩
      else readPlain flow least (c :: (gap.folded ++ text)) .none (mark.after c) cs

/-! ### Quoted scalars -/

/-- Reads on between apostrophes; two of them in a row stand for one. -/
def readSingleQuoted (text : List Char) (gap : Gap) (mark : Mark) :
    List Char → Except Fault (String × Cursor)
  | [] => .error ⟨mark, .unclosedQuotes⟩
  | '\'' :: '\'' :: cs =>
    readSingleQuoted ('\'' :: (gap.folded ++ text)) .none ((mark.after '\'').after '\'') cs
  | c :: cs =>
    if isBlank c || isBreak c then readSingleQuoted text (gap.add c) (mark.after c) cs
    else if c = '\'' then .ok (ofReversed (gap.folded ++ text), ⟨mark.after c, cs⟩)
    else if mark.column = 0 && atDocumentMark (c :: cs) then .error ⟨mark, .documentInQuotes⟩
    else readSingleQuoted (c :: (gap.folded ++ text)) .none (mark.after c) cs

/-- What a letter after a backslash stands for. -/
def escape? : Char → Option Text.Escape
  | '0' => some (.char '\x00')
  | 'a' => some (.char '\x07')
  | 'b' => some (.char '\x08')
  | 't' => some (.char '\t')
  | '\t' => some (.char '\t')
  | 'n' => some (.char '\n')
  | 'v' => some (.char '\x0b')
  | 'f' => some (.char '\x0c')
  | 'r' => some (.char '\r')
  | 'e' => some (.char '\x1b')
  | ' ' => some (.char ' ')
  | '"' => some (.char '"')
  | '\'' => some (.char '\'')
  | '\\' => some (.char '\\')
  | 'N' => some (.char '\u0085')
  | '_' => some (.char '\u00a0')
  | 'L' => some (.char '\u2028')
  | 'P' => some (.char '\u2029')
  | 'x' => some (.code 2)
  | 'u' => some (.code 4)
  | 'U' => some (.code 8)
  | _ => none

/-- Where a reader of a text in quotation marks stands. -/
inductive QuotePart where
  | text
  /-- Behind a backslash. -/
  | escape
  /-- Before so many digits of a code, the ones before having the given value. -/
  | code (digits value : Nat)

/-- Reads on between quotation marks. -/
def readDoubleQuoted (text : List Char) (gap : Gap) (part : QuotePart) (mark : Mark) :
    List Char → Except Fault (String × Cursor)
  | [] => .error ⟨mark, .unclosedQuotes⟩
  | c :: cs =>
    match part with
    | .text =>
      if isBlank c || isBreak c then readDoubleQuoted text (gap.add c) .text (mark.after c) cs
      else if mark.column = 0 && atDocumentMark (c :: cs) then .error ⟨mark, .documentInQuotes⟩
      else
        let text := gap.folded ++ text
        if c = '"' then .ok (ofReversed text, ⟨mark.after c, cs⟩)
        else if c = '\\' then readDoubleQuoted text .none .escape (mark.after c) cs
        else readDoubleQuoted (c :: text) .none .text (mark.after c) cs
    | .escape =>
      -- An escaped line break joins the lines without a space.
      if isBreak c then readDoubleQuoted text (.breaks none []) .text (mark.after c) cs
      else match escape? c with
        | none => .error ⟨mark, .unknownEscape⟩
        | some (.char d) => readDoubleQuoted (d :: text) .none .text (mark.after c) cs
        | some (.code digits) => readDoubleQuoted text .none (.code digits 0) (mark.after c) cs
    | .code digits value =>
      match hexValue c with
      | none => .error ⟨mark, .escapeCode⟩
      | some d =>
        let value := value * 16 + d
        if digits ≤ 1 then
          match charOfCode value with
          | none => .error ⟨mark, .escapeCode⟩
          | some e => readDoubleQuoted (e :: text) .none .text (mark.after c) cs
        else readDoubleQuoted text .none (.code (digits - 1) value) (mark.after c) cs

/-! ### Block scalars -/

/-- What becomes of the line breaks at the end of a block. -/
inductive Chomping where
  /-- All but the first are dropped. -/
  | clip
  | strip
  | keep
  deriving DecidableEq

/-- The first line of a block scalar. -/
structure BlockHeader where
  /-- Whether line breaks are folded. -/
  folds : Bool
  chomping : Chomping := .clip
  /-- The indentation relative to the surrounding block, if it is given. -/
  increment : Option Nat := none

/-- The lines of a block read so far; texts are in reverse. -/
structure BlockText where
  text : List Char := []
  /-- The break that ended the last line. -/
  ended : Option Char := none
  /-- The breaks of the empty lines since. -/
  empty : List Char := []
  /-- Whether the last line started with a blank. -/
  indented : Bool := false

/-- The block with the breaks since the last line written before a line that starts with `c`. -/
def BlockText.openLine (b : BlockText) (folds : Bool) (c : Char) : BlockText :=
  let blank := isBlank c
  let joined :=
    if folds && !b.indented && !blank && b.ended = some '\n' then
      if b.empty.isEmpty then [' '] else []
    else b.ended.toList
  { text := b.empty ++ joined ++ b.text, indented := blank }

/-- The text of a block. -/
def BlockText.close (b : BlockText) : Chomping → String
  | .strip => ofReversed b.text
  | .clip => ofReversed (b.ended.toList ++ b.text)
  | .keep => ofReversed (b.empty ++ b.ended.toList ++ b.text)

/-- Where a reader of a block stands. -/
inductive BlockPart where
  /-- At the start of a line; the lines before showed the given deepest column. -/
  | start (deepest : Nat)
  | line

/-- Reads the lines of a block. `outer` is the least indentation it may have; its own indentation is
known or is that of its first line. -/
def readBlock (h : BlockHeader) (outer : Nat) (indent : Option Nat) (b : BlockText)
    (part : BlockPart) (mark : Mark) : List Char → Except Fault (String × Cursor)
  | [] =>
    let b := match part with
      | .line => { b with ended := none }
      | .start _ => b
    .ok (b.close h.chomping, ⟨mark, []⟩)
  | c :: cs =>
    match part with
    | .line =>
      if isBreak c then
        readBlock h outer indent { b with ended := some c } (.start 0) (mark.after c) cs
      else readBlock h outer indent { b with text := c :: b.text } .line (mark.after c) cs
    | .start deepest =>
      -- As long as the indentation is not known, every space may belong to it.
      let before := match indent with
        | some n => decide (mark.column < n)
        | none => true
      if before && c = ' ' then readBlock h outer indent b (.start deepest) (mark.after c) cs
      else if before && c = '\t' then .error ⟨mark, .tabIndentation⟩
      else
        let deepest := max deepest mark.column
        if isBreak c then
          readBlock h outer indent { b with empty := c :: b.empty } (.start deepest) (mark.after c) cs
        else
          -- The first line with content settles the indentation.
          let column := indent.getD (max deepest (max outer 1))
          if mark.column = column then
            let b := b.openLine h.folds c
            readBlock h outer (some column) { b with text := c :: b.text } .line (mark.after c) cs
          else .ok (b.close h.chomping, ⟨mark, c :: cs⟩)

/-- Reads a digit that gives an indentation. -/
def readIncrement (cur : Cursor) : Except Fault (Option Nat × Cursor) :=
  match cur.rest with
  | c :: _ =>
    if c = '0' then cur.fault .blockHeader
    else if c.isDigit then .ok (Text.digitValue c, cur.drop 1)
    else .ok (none, cur)
  | [] => .ok (none, cur)

/-- Reads a chomping mark. -/
def readChomping (cur : Cursor) : Option Chomping × Cursor :=
  match cur.rest with
  | '+' :: _ => (some .keep, cur.drop 1)
  | '-' :: _ => (some .strip, cur.drop 1)
  | _ => (none, cur)

/-- Reads the marks behind `|` or `>`, in either order. -/
def readBlockMarks (folds : Bool) (cur : Cursor) : Except Fault (BlockHeader × Cursor) := do
  match readChomping cur with
  | (some chomping, cur) =>
    let (increment, cur) ← readIncrement cur
    return ({ folds, chomping, increment }, cur)
  | (none, cur) =>
    let (increment, cur) ← readIncrement cur
    match increment, readChomping cur with
    | some _, (some chomping, cur) => return ({ folds, chomping, increment }, cur)
    | _, _ => return ({ folds, increment }, cur)

/-- Reads a block scalar behind its `|` or `>`. `outer` is the least indentation it may have and
`parent` the indentation of the surrounding block. -/
def readBlockScalar (folds : Bool) (outer parent : Nat) (cur : Cursor) :
    Except Fault (String × Cursor) := do
  let (h, cur) ← readBlockMarks folds cur
  let cur := cur.skipWhile isBlank
  let cur := match cur.rest with
    | '#' :: _ => cur.skipWhile (! isBreak ·)
    | _ => cur
  if !cur.atGap then cur.fault .blockHeader
  let cur := cur.drop 1
  readBlock h outer (h.increment.map (parent + ·)) {} (.start 0) cur.mark cur.rest

end MmixBackend.Yaml
