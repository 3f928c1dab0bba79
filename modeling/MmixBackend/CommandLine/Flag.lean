import MmixBackend.Text.Numeral
import MmixBackend.Text.Quoted

/-!
# Flags

Command-line arguments are flags and other words. A flag is written `--name`, or `-c` by its letter,
and letters can be put together. A switch needs no value and takes one only behind `=`; other flags
take it behind `=`, right behind their letter, or as the next argument. Flags may stand anywhere; a
`--` ends them, and a `-` alone is an ordinary word.
-/

namespace MmixBackend

/-- The kinds of flags. -/
inductive FlagKind where
  | switch
  | int
  | text
  deriving DecidableEq, Repr

/-- A flag. -/
structure Flag where
  name : String
  /-- The letter by which it can be given too. -/
  letter : Option Char := none
  kind : FlagKind := .switch
  /-- What it is for. -/
  usage : String := ""
  /-- What its value is called. -/
  operand : String := ""
  /-- The value that it has when it is not given, if that is worth telling. -/
  preset : String := ""
  deriving DecidableEq, Repr

/-- The value of a flag. -/
inductive FlagValue where
  | switch (b : Bool)
  | int (n : Int)
  | text (s : String)
  deriving DecidableEq, Repr

/-- What is wrong with arguments. -/
inductive FlagFault where
  | malformed (arg : String)
  | unknown (name : String)
  | unknownLetter (c : Char) (letters : String)
  | noValue (name : String)
  | noLetterValue (c : Char) (letters : String)
  | badSwitch (flag : Flag) (value : String)
  | badInt (flag : Flag) (value : String) (fault : Text.NumeralFault)
  | help
  deriving DecidableEq, Repr

namespace Flag

/-- How a flag is called in messages. -/
def display (f : Flag) : String :=
  match f.letter with
  | some c => "-" ++ c.toString ++ ", --" ++ f.name
  | none => "--" ++ f.name

end Flag

/-- The wording of a fault. -/
def FlagFault.message : FlagFault → String
  | malformed arg => "bad flag syntax: " ++ arg
  | unknown name => "unknown flag: --" ++ name
  | unknownLetter c letters =>
    "unknown shorthand flag: " ++ Text.quotedChar c ++ " in -" ++ letters
  | noValue name => "flag needs an argument: --" ++ name
  | noLetterValue c letters =>
    "flag needs an argument: " ++ Text.quotedChar c ++ " in -" ++ letters
  | badSwitch flag value =>
    invalid flag value ++ "strconv.ParseBool: parsing " ++ Text.quoted value ++ ": invalid syntax"
  | badInt flag value fault =>
    invalid flag value ++ "strconv.ParseInt: parsing " ++ Text.quoted value ++ ": "
      ++ match fault with
        | .spelling => "invalid syntax"
        | .range => "value out of range"
  | help => "pflag: help requested"
where
  invalid (flag : Flag) (value : String) : String :=
    "invalid argument " ++ Text.quoted value ++ " for " ++ Text.quoted flag.display ++ " flag: "

/-- The arguments of a command. -/
structure Arguments where
  /-- The flags with their values, the last one first. -/
  flags : List (String × FlagValue) := []
  /-- The other words in order. -/
  words : List String := []
  deriving DecidableEq, Repr

namespace Arguments

/-- Whether a switch is on. -/
def isOn (a : Arguments) (name : String) : Bool := a.flags.lookup name = some (.switch true)

/-- The text given for a flag, or the empty text. -/
def text (a : Arguments) (name : String) : String :=
  match a.flags.lookup name with
  | some (.text s) => s
  | _ => ""

end Arguments

/-- Reads the value of a switch. -/
def readSwitch? (s : String) : Option Bool :=
  if s ∈ ["1", "t", "T", "true", "TRUE", "True"] then some true
  else if s ∈ ["0", "f", "F", "false", "FALSE", "False"] then some false
  else none

/-- Reads the value of a flag. -/
def Flag.read (f : Flag) (value : String) : Except FlagFault (String × FlagValue) :=
  match f.kind with
  | .switch =>
    match readSwitch? value with
    | some b => .ok (f.name, .switch b)
    | none => .error (.badSwitch f value)
  | .int =>
    match Text.readWord .named value with
    | .ok n => .ok (f.name, .int n.toInt)
    | .error fault => .error (.badInt f value fault)
  | .text => .ok (f.name, .text value)

/-- A flag that still needs a value, and what to say if none comes. -/
structure Waiting where
  flag : Flag
  fault : FlagFault

/-- What one argument gives: flags, the last one first, and perhaps a flag that needs a value. -/
structure Given where
  flags : List (String × FlagValue) := []
  waiting : Option Waiting := none

/-- The character with the code of the first byte of a character. -/
def firstByte (c : Char) : Char :=
  let n := c.toNat
  Char.ofNat <|
    if n < 0x80 then n
    else if n < 0x800 then 0xc0 + n / 0x40
    else if n < 0x10000 then 0xe0 + n / 0x1000
    else 0xf0 + n / 0x40000

/-- Reads the letters behind a single dash. -/
def readLetters (flags : List Flag) (found : List (String × FlagValue)) :
    List Char → Except FlagFault Given
  | [] => .ok { flags := found }
  | c :: cs =>
    match flags.find? fun f => f.letter = some c with
    | none =>
      if c = 'h' then .error .help
      else .error (.unknownLetter (firstByte c) (String.ofList (c :: cs)))
    | some f =>
      match cs with
      | '=' :: v :: vs => do
        return { flags := (← f.read (String.ofList (v :: vs))) :: found }
      | _ =>
        if f.kind = .switch then readLetters flags ((f.name, .switch true) :: found) cs
        else if cs.isEmpty then
          .ok { flags := found, waiting := some ⟨f, .noLetterValue c c.toString⟩ }
        else do return { flags := (← f.read (String.ofList cs)) :: found }

/-- Reads what follows a double dash. -/
def readLong (flags : List Flag) (cs : List Char) : Except FlagFault Given := do
  if cs.isEmpty || cs.head? = some '-' || cs.head? = some '=' then
    throw (.malformed ("--" ++ String.ofList cs))
  let name := String.ofList (cs.takeWhile (· ≠ '='))
  match flags.find? fun f => f.name = name with
  | none => throw (if name = "help" then .help else .unknown name)
  | some f =>
    match cs.dropWhile (· ≠ '=') with
    | _ :: value => return { flags := [← f.read (String.ofList value)] }
    | [] =>
      if f.kind = .switch then return { flags := [(f.name, .switch true)] }
      else return { waiting := some ⟨f, .noValue name⟩ }

/-- Reads arguments, the first one being the value of a flag that waits for it. -/
def readArguments (flags : List Flag) (found : List (String × FlagValue)) (words : List String)
    (waiting : Option Waiting) : List String → Except FlagFault Arguments
  | [] =>
    match waiting with
    | some w => .error w.fault
    | none => .ok { flags := found, words := words.reverse }
  | arg :: rest =>
    match waiting with
    | some w => do readArguments flags ((← w.flag.read arg) :: found) words none rest
    | none =>
      match arg.toList with
      | ['-', '-'] => .ok { flags := found, words := words.reverse ++ rest }
      | '-' :: '-' :: cs => do
        let given ← readLong flags cs
        readArguments flags (given.flags ++ found) words given.waiting rest
      | '-' :: c :: cs => do
        let given ← readLetters flags [] (c :: cs)
        readArguments flags (given.flags ++ found) words given.waiting rest
      | _ => readArguments flags found (arg :: words) none rest

/-- Reads the arguments of a command with the given flags. -/
def Arguments.read (flags : List Flag) (args : List String) : Except FlagFault Arguments :=
  readArguments flags [] [] none args

/-! ### Usage -/

/-- How a flag is written. -/
def Flag.head (f : Flag) : String :=
  (match f.letter with
    | some c => "  -" ++ c.toString ++ ", --" ++ f.name
    | none => "      --" ++ f.name)
    ++ (if f.operand.isEmpty then "" else " " ++ f.operand)

/-- What a flag is for. -/
def Flag.purpose (f : Flag) : String :=
  f.usage ++ (if f.preset.isEmpty then "" else " (default " ++ f.preset ++ ")")

/-- The list of flags in the order of their names, with what they are for in one column. -/
def usageText (flags : List Flag) : String :=
  let width := (flags.map fun f => f.head.length).foldl max 0 + 3
  let sorted := flags.mergeSort fun f g => f.name ≤ g.name
  String.join (sorted.map fun f =>
    f.head.pushn ' ' (width - f.head.length) ++ f.purpose ++ "\n")

end MmixBackend
