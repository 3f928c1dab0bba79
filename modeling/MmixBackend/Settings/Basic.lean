import MmixBackend.Compilation

/-!
# Settings

What can be set about a compilation. The values come from the defaults, a file, the environment and
the command line; each of these goes over the ones before it.
-/

namespace MmixBackend

/-- The settings of a compilation. -/
structure Settings where
  /-- The number of registers. -/
  registers : Int := 8
  /-- The number of functions compiled at the same time. -/
  jobs : Int := 1
  /-- Whether all arguments are passed through an address register. -/
  argsViaRegister : Bool := false
  /-- Whether progress is logged. -/
  verbose : Bool := false
  deriving DecidableEq, Inhabited, Repr

/-- Why settings cannot work. -/
inductive SettingsFault where
  | registers (n : Int)
  | jobs (n : Int)
  deriving DecidableEq, Repr

/-- The wording of a fault. -/
def SettingsFault.message : SettingsFault → String
  | registers n =>
    "configuration error: nregs " ++ toString n ++ " out of range [" ++ toString minRegisters
      ++ "," ++ toString maxRegisters ++ "]"
  | jobs n => "configuration error: jobs " ++ toString n ++ " must be positive"

namespace Settings

/-- The first fault of the settings. -/
def fault? (s : Settings) : Option SettingsFault :=
  if s.registers < minRegisters ∨ maxRegisters < s.registers then
    some (.registers s.registers)
  else if s.jobs < 1 then some (.jobs s.jobs)
  else none

/-- The options of a compilation with these settings. -/
def options (s : Settings) (wanted : Wanted) : Options :=
  { registers := s.registers, jobs := s.jobs
    args := if s.argsViaRegister then .register else .immediate, wanted }

/-- The name of the environment variable for the number of registers. -/
def registersVariable : String := "PREVC_NREGS"

/-- The name of the environment variable for the number of jobs. -/
def jobsVariable : String := "PREVC_JOBS"

/-- The name of the environment variable for logging. -/
def verboseVariable : String := "PREVC_VERBOSE"

/-- The number that a variable gives, unless it is not a decimal number. -/
def variableInt? (s : String) : Option Int :=
  (Text.readWord (.fixed 10) s).toOption.map Int64.toInt

/-- Whether a word is written in small letters, in capitals, or with a capital in front, and is then
one of the given words. -/
def isWord (words : List String) (s : String) : Bool :=
  words.any fun w => s = w || s = w.toUpper || s = w.capitalize

/-- Whether a variable says yes. -/
def variableBool (s : String) : Bool :=
  ["1", "t", "T", "y", "Y"].contains s
    || isWord ["true", "yes", "enable", "enabled", "affirmative", "positive", "absolutely"] s

/-- The settings with the environment over them. -/
def applyEnvironment (s : Settings) (envValue? : String → Option String) : Settings :=
  let int (name : String) (old : Int) : Int := ((envValue? name).bind variableInt?).getD old
  { s with
    registers := int registersVariable s.registers
    jobs := int jobsVariable s.jobs
    verbose := match envValue? verboseVariable with
      | none => s.verbose
      | some v => if v.isEmpty then s.verbose else variableBool v }

end Settings

end MmixBackend
