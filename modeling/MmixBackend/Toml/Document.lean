import MmixBackend.Text.Escape
import MmixBackend.Toml.Value

/-!
# TOML documents

Reads the items of a TOML document. A text that is not a document has no items at all: the readers
give `none`.
-/

namespace MmixBackend.Toml

open Text (ofReversed hexValue charOfCode)

/-- A reader takes characters from the front of a text. -/
abbrev Reader := StateT (List Char) Option

/-- Blanks within a line. -/
def isSpace (c : Char) : Bool := c = ' ' || c = '\t'

/-- The characters that may stand in comments and between quotes. -/
def isText (c : Char) : Bool := c = '\t' || (0x20 ≤ c.toNat && c.toNat ≠ 0x7f)

/-- The characters of keys without quotes. -/
def isKeyChar (c : Char) : Bool := c.isAlphanum || c = '-' || c = '_'

/-- The rest of a text behind its first line end, if it starts with one. -/
def afterLineEnd? : List Char → Option (List Char)
  | '\n' :: cs => some cs
  | '\r' :: '\n' :: cs => some cs
  | _ => none

/-! ### Strings -/

/-- Reads on between apostrophes. -/
def readLiteral (text : List Char) : List Char → Option (String × List Char)
  | [] => none
  | c :: cs =>
    if c = '\'' then some (ofReversed text, cs)
    else if isText c then readLiteral (c :: text) cs
    else none

/-- Reads on between three apostrophes each; up to two more may stand right before the last three. -/
def readLongLiteral (text : List Char) : List Char → Option (String × List Char)
  | [] => none
  | '\'' :: '\'' :: '\'' :: '\'' :: '\'' :: cs =>
    if cs.head? = some '\'' then none else some (ofReversed ('\'' :: '\'' :: text), cs)
  | '\'' :: '\'' :: '\'' :: '\'' :: cs => some (ofReversed ('\'' :: text), cs)
  | '\'' :: '\'' :: '\'' :: cs => some (ofReversed text, cs)
  | '\r' :: '\n' :: cs => readLongLiteral ('\n' :: '\r' :: text) cs
  | c :: cs => if c = '\n' || isText c then readLongLiteral (c :: text) cs else none

/-- What a letter after a backslash stands for. -/
def escape? : Char → Option Text.Escape
  | 'b' => some (.char '\x08')
  | 't' => some (.char '\t')
  | 'n' => some (.char '\n')
  | 'f' => some (.char '\x0c')
  | 'r' => some (.char '\r')
  | 'e' => some (.char '\x1b')
  | '"' => some (.char '"')
  | '\\' => some (.char '\\')
  | 'u' => some (.code 4)
  | 'U' => some (.code 8)
  | _ => none

/-- Reads on behind a backslash, or before the digits of a code. -/
inductive StringPart where
  | text
  | escape
  | code (digits value : Nat)
  /-- Behind a backslash at the end of a line: blank space is left out. -/
  | trimmed

/-- Whether only blanks precede the end of the line. -/
def lineEndsHere (cs : List Char) : Bool := (afterLineEnd? (cs.dropWhile isSpace)).isSome

/-- Reads on between quotation marks, three of them each if the text is `long`. A long text may have
line breaks and up to two more quotation marks right before the last three. -/
def readBasic (long : Bool) (text : List Char) (part : StringPart) :
    List Char → Option (String × List Char)
  | [] => none
  | c :: cs =>
    let inText : Option (String × List Char) :=
      if c = '\\' then readBasic long text .escape cs
      else if c = '"' && !long then some (ofReversed text, cs)
      else if c = '"' then
        match cs with
        | '"' :: '"' :: '"' :: '"' :: rest =>
          if rest.head? = some '"' then none else some (ofReversed ('"' :: '"' :: text), rest)
        | '"' :: '"' :: '"' :: rest => some (ofReversed ('"' :: text), rest)
        | '"' :: '"' :: rest => some (ofReversed text, rest)
        | _ => readBasic long (c :: text) .text cs
      else if isText c || (long && (c = '\n' || (c = '\r' && cs.head? = some '\n'))) then
        readBasic long (c :: text) .text cs
      else none
    match part with
    | .text => inText
    | .trimmed =>
      if isSpace c || c = '\n' || c = '\r' then readBasic long text .trimmed cs else inText
    | .escape =>
      if long && lineEndsHere (c :: cs) then readBasic long text .trimmed cs
      else match escape? c with
        | none => none
        | some (.char d) => readBasic long (d :: text) .text cs
        | some (.code digits) => readBasic long text (.code digits 0) cs
    | .code digits value =>
      match hexValue c with
      | none => none
      | some d =>
        let value := value * 16 + d
        if digits ≤ 1 then
          match charOfCode value with
          | none => none
          | some e => readBasic long (e :: text) .text cs
        else readBasic long text (.code (digits - 1) value) cs

/-- A long text without a line end at its very start. -/
def dropLineEnd (cs : List Char) : List Char := (afterLineEnd? cs).getD cs

/-! ### Space, keys -/

namespace Reader

/-- The characters still to be read. -/
def rest : Reader (List Char) := get

/-- Reads with a function on texts. -/
def taking {α : Type} (f : List Char → Option (α × List Char)) : Reader α := f

/-- Skips blanks. -/
def skipSpace : Reader Unit := modify (·.dropWhile isSpace)

/-- Reads a certain character. -/
def expect (c : Char) : Reader Unit := fun
  | d :: cs => if c = d then some ((), cs) else none
  | [] => none

/-- Skips a comment, if one follows, up to the end of the line. -/
def skipComment : Reader Unit := do
  match ← rest with
  | '#' :: cs =>
    let after := cs.dropWhile isText
    if after.isEmpty || (afterLineEnd? after).isSome then set after else failure
  | _ => pure ()

/-- Skips blanks, comments and line ends. -/
def skipLines : (fuel : Nat) → Reader Unit
  | 0 => failure
  | fuel + 1 => do
    skipSpace
    skipComment
    match afterLineEnd? (← rest) with
    | some cs =>
      set cs
      skipLines fuel
    | none => pure ()

/-- Reads one name of a key. -/
def name : Reader String := do
  match ← rest with
  | '\'' :: cs =>
    set cs
    taking (readLiteral [])
  | '"' :: cs =>
    set cs
    taking (readBasic false [] .text)
  | cs =>
    let word := cs.takeWhile isKeyChar
    if word.isEmpty then failure
    set (cs.dropWhile isKeyChar)
    return String.ofList word

/-- Reads the names of a key from the first on. -/
def key : (fuel : Nat) → Reader Key
  | 0 => failure
  | fuel + 1 => do
    let first ← name
    skipSpace
    match ← rest with
    | '.' :: cs =>
      set cs
      skipSpace
      return first :: (← key fuel)
    | _ => return [first]

/-! ### Numbers and dates -/

/-- Whether a text starts with three letters. -/
def beginsWith (word cs : List Char) : Bool := cs.take word.length = word

/-- The characters of a number: its text and whether it is a floating-point number. -/
def scanNumber (text : List Char) (float : Bool) : List Char → Option (Value × List Char)
  | [] => finish text float []
  | c :: cs =>
    if c.isDigit || c = '+' || c = '-' || c = '_' then scanNumber (c :: text) float cs
    else if c = '.' || c = 'e' || c = 'E' then scanNumber (c :: text) true cs
    else if beginsWith ['i', 'n', 'f'] (c :: cs) || beginsWith ['n', 'a', 'n'] (c :: cs) then
      some (.float (text.reverse ++ (c :: cs).take 3), cs.drop 2)
    else if c = 'i' || c = 'n' then none
    else finish text float (c :: cs)
where
  finish (text : List Char) (float : Bool) (rest : List Char) : Option (Value × List Char) :=
    if text.isEmpty then none
    else some (if float then .float text.reverse else .integer text.reverse, rest)

/-- Reads a number. Behind a zero only a point, an exponent or the letter of a radix go on with the
same number. -/
def number (cs : List Char) : Option (Value × List Char) :=
  let radix (valid : Char → Bool) (start ds : List Char) : Option (Value × List Char) :=
    some (.integer (start ++ ds.takeWhile valid), ds.dropWhile valid)
  match cs with
  | '0' :: d :: e :: rest =>
    let more := e :: rest
    if d = '.' || d = 'e' || d = 'E' then scanNumber [] false cs
    else if d = 'x' then
      radix (fun c => (hexValue c).isSome || c = '_') ['0', d] more
    else if d = 'o' then radix (fun c => ('0' ≤ c && c ≤ '7') || c = '_') ['0', d] more
    else if d = 'b' then radix (fun c => c = '0' || c = '1' || c = '_') ['0', d] more
    else some (.integer ['0'], d :: more)
  | _ => scanNumber [] false cs

/-- Whether a text starts like a date or a clock time. -/
def startsDate (cs : List Char) : Bool :=
  match cs with
  | a :: b :: ':' :: _ => a.isDigit && b.isDigit
  | a :: b :: c :: d :: '-' :: _ => [a, b, c, d].all Char.isDigit
  | _ => false

/-- The characters of a date. A blank may stand once, between digits. -/
def scanDate (blank : Bool) (text : List Char) : List Char → List Char × List Char
  | [] => (text.reverse, [])
  | c :: cs =>
    if c.isDigit || "-+Tt:.Zz".toList.contains c then scanDate blank (c :: text) cs
    else if c = ' ' && blank && (cs.head?.any Char.isDigit) then scanDate false (c :: text) cs
    else (text.reverse, c :: cs)

/-! ### Values -/

mutual

/-- Reads a value. -/
def value : (fuel : Nat) → Reader Value
  | 0 => failure
  | fuel + 1 => do
    let cs ← rest
    match cs with
    | '"' :: '"' :: '"' :: cs =>
      set (dropLineEnd cs)
      return .string (← taking (readBasic true [] .text))
    | '\'' :: '\'' :: '\'' :: cs =>
      set (dropLineEnd cs)
      return .string (← taking (readLongLiteral []))
    | '"' :: cs =>
      set cs
      return .string (← taking (readBasic false [] .text))
    | '\'' :: cs =>
      set cs
      return .string (← taking (readLiteral []))
    | '[' :: cs =>
      set cs
      return .array (← items true fuel)
    | '{' :: cs =>
      set cs
      return .table (← pairs true fuel)
    | 't' :: 'r' :: 'u' :: 'e' :: cs =>
      set cs
      return .boolean true
    | 'f' :: 'a' :: 'l' :: 's' :: 'e' :: cs =>
      set cs
      return .boolean false
    | _ =>
      if startsDate cs then
        let (text, after) := scanDate true [] cs
        set after
        return .date text
      else taking number

/-- Reads the items of an array up to its end. -/
def items (first : Bool) : (fuel : Nat) → Reader (List Value)
  | 0 => failure
  | fuel + 1 => do
    skipLines fuel
    match ← rest with
    | ']' :: cs =>
      set cs
      return []
    | ',' :: cs =>
      if first then failure
      set cs
      skipLines fuel
      match ← rest with
      | ']' :: cs =>
        set cs
        return []
      | _ => return (← value fuel) :: (← items false fuel)
    | _ =>
      if !first then failure
      return (← value fuel) :: (← items false fuel)

/-- Reads the pairs of a table in braces up to its end. -/
def pairs (first : Bool) : (fuel : Nat) → Reader (List Pair)
  | 0 => failure
  | fuel + 1 => do
    skipSpace
    match ← rest with
    | '}' :: cs =>
      set cs
      return []
    | _ =>
      if !first then
        expect ','
        skipSpace
      return (← pair fuel) :: (← pairs false fuel)

/-- Reads a key and its value. -/
def pair : (fuel : Nat) → Reader Pair
  | 0 => failure
  | fuel + 1 => do
    let k ← key fuel
    skipSpace
    expect '='
    skipSpace
    return .mk k (← value fuel)

end

/-! ### Documents -/

/-- Reads a header or a pair, if the line has one. -/
def item? (fuel : Nat) : Reader (Option Item) := do
  skipSpace
  match ← rest with
  | [] => return none
  | '#' :: _ => return none
  | '\n' :: _ => return none
  | '\r' :: _ => return none
  | '[' :: '[' :: cs =>
    set (cs.dropWhile isSpace)
    let k ← key fuel
    expect ']'
    expect ']'
    return some (.element k)
  | '[' :: cs =>
    set (cs.dropWhile isSpace)
    let k ← key fuel
    expect ']'
    return some (.table k)
  | _ => return some (.pair (← pair fuel))

/-- Reads the lines of a document. -/
def document : (fuel : Nat) → Reader (List Item)
  | 0 => failure
  | fuel + 1 => do
    let found ← item? fuel
    skipSpace
    skipComment
    match ← rest with
    | [] => return found.toList
    | cs =>
      match afterLineEnd? cs with
      | some after =>
        set after
        return found.toList ++ (← document fuel)
      | none => failure

end Reader

/-- The items of a document. -/
def items? (s : String) : Option (List Item) :=
  let cs := s.toList
  ((Reader.document (2 * cs.length + 4)).run cs).map Prod.fst

end MmixBackend.Toml
