import MmixBackend.CommandLine.Flag
import MmixBackend.Settings.File
import MmixBackend.Source.Reader
import MmixBackend.Source.Resolution

/-!
# The command

Compiles a program file and writes the assembly to a file or to the output, or runs the program. What
the command needs from the outside, files, the environment and the standard streams, is a `Host`; so
the command itself is the same for the real system and for a directory that is only imagined.
-/

namespace MmixBackend

/-! ### Hosts -/

/-- Why a file could not be used. -/
inductive FileCause where
  | missing
  | directory
  | notDirectory
  | other (text : String)
  deriving DecidableEq

/-- The wording of a cause. -/
def FileCause.message : FileCause → String
  | missing => "no such file or directory"
  | directory => "is a directory"
  | notDirectory => "not a directory"
  | other text => text

/-- A failed action on a file. -/
structure FileError where
  action : String
  path : String
  cause : FileCause
  deriving DecidableEq

/-- The text of an error. -/
def FileError.message (e : FileError) : String :=
  e.action ++ " " ++ e.path ++ ": " ++ e.cause.message

/-- What a command can do to the world around it. -/
structure Host (m : Type → Type) where
  readFile : String → m (Except FileError ByteArray)
  writeFile : String → String → m (Except FileError Unit)
  /-- The value of an environment variable. -/
  envValue? : String → m (Option String)
  /-- Everything on the standard input. -/
  input : m ByteReader
  /-- Writes to the standard output. -/
  print : String → m Unit
  /-- Writes bytes to the standard output. -/
  printBytes : List UInt8 → m Unit
  /-- Writes to the standard error output. -/
  complain : String → m Unit

/-! ### Errors -/

/-- Why a command failed. -/
inductive CommandError where
  | flag (fault : FlagFault)
  | tooManyFiles (count : Nat)
  | readSettings (error : FileError)
  | settingsFile (fault : Settings.FileFault)
  | settings (fault : SettingsFault)
  | readProgram (error : FileError)
  | program (path : String) (error : Source.ReadError)
  | undecodable (path : String)
  | compile (error : CompileError)
  | runtime (error : RuntimeError)
  | unfinished
  | writeAssembly (error : FileError)

/-- The wording of an error. -/
def CommandError.message : CommandError → String
  | flag fault => fault.message
  | tooManyFiles count => "accepts at most 1 arg(s), received " ++ toString count
  | readSettings error => "read config: " ++ error.message
  | settingsFile fault => fault.message
  | settings fault => fault.message
  | readProgram error => "read program: " ++ error.message
  | program path error => path ++ ": " ++ error.message
  | undecodable path => path ++ ": the text is not in UTF-8"
  | compile error => error.message
  | runtime error => error.message
  | unfinished => "the program did not end"
  | writeAssembly error => error.message

/-! ### Flags -/

/-- The flags for settings. -/
def settingsFlags : List Flag :=
  [{ name := "nregs", kind := .int, operand := "int", preset := "8"
     usage := "number of registers available to the allocator" },
   { name := "jobs", kind := .int, operand := "int", preset := "1"
     usage := "number of functions compiled in parallel" },
   { name := "args-via-register", usage := "pass call arguments through an address register" },
   { name := "verbose", letter := some 'v', usage := "log compilation progress to stderr" }]

/-- The flags of the command. -/
def commandFlags : List Flag :=
  settingsFlags ++
  [{ name := "dimc", usage := "Dump intermediate code trees" },
   { name := "dlin", usage := "Dump linearized intermediate code" },
   { name := "dasm", usage := "Dump selected instructions" },
   { name := "dlive", usage := "Dump selected instructions with liveness" },
   { name := "dregall", usage := "Dump instructions after register allocation" },
   { name := "output", letter := some 'o', kind := .text, operand := "file"
     usage := "Write assembly to file (- for stdout)" },
   { name := "config", kind := .text, operand := "file"
     usage := "Read configuration from a YAML or TOML file" },
   { name := "run", usage := "Interpret the program instead of writing assembly" },
   { name := "help", letter := some 'h', usage := "help for prevc" },
   { name := "version", usage := "version for prevc" }]

/-- The settings with the flags over them that were given. -/
def Settings.applyFlags (s : Settings) (a : Arguments) : Settings :=
  let int (name : String) (old : Int) : Int :=
    match a.flags.lookup name with
    | some (.int n) => n
    | _ => old
  let switch (name : String) (old : Bool) : Bool :=
    match a.flags.lookup name with
    | some (.switch b) => b
    | _ => old
  { registers := int "nregs" s.registers, jobs := int "jobs" s.jobs
    argsViaRegister := switch "args-via-register" s.argsViaRegister
    verbose := switch "verbose" s.verbose }

/-- The listings that were asked for. -/
def Arguments.wanted (a : Arguments) : Wanted :=
  { trees := a.isOn "dimc", linear := a.isOn "dlin", selected := a.isOn "dasm"
    live := a.isOn "dlive", allocated := a.isOn "dregall" }

/-- The flags that may also be written with a single dash. -/
def dumpNames : List String := ["dimc", "dlin", "dasm", "dlive", "dregall"]

/-- An argument with the dash of a dump flag doubled. -/
def doubleDash (arg : String) : String :=
  if dumpNames.any fun name => arg = "-" ++ name then "-" ++ arg else arg

/-- The help text. -/
def helpText : String :=
  "prevc translates a resolved program, given as YAML, into\n"
    ++ "intermediate code, selects MMIX instructions, allocates registers\n"
    ++ "and writes MMIXAL.\n\nUsage:\n  prevc [file] [flags]\n\nFlags:\n" ++ usageText commandFlags

/-- The version of the command. -/
def versionText : String := "prevc version 0.1.0\n"

/-- The default name for the assembly of a program. -/
def assemblyName (path : String) : String :=
  let without (ext : String) : String := (path.dropEnd ext.length).toString ++ ".mms"
  if path.endsWith ".yaml" then without ".yaml"
  else if path.endsWith ".yml" then without ".yml"
  else path ++ ".mms"

/-! ### Running the command -/

namespace Command

variable {m : Type → Type} [Monad m]

/-- A step that may fail. -/
def orFail {α ε : Type} (wrap : ε → CommandError) (r : Except ε α) : ExceptT CommandError m α :=
  match r with
  | .ok a => pure a
  | .error e => throw (wrap e)

/-- The settings from the file, the environment and the flags. -/
def settings (host : Host m) (a : Arguments) : ExceptT CommandError m Settings := do
  let path := a.text "config"
  let s ← if path.isEmpty then pure {} else do
    let bytes ← orFail .readSettings (← host.readFile path)
    match String.fromUTF8? bytes with
    | some content => orFail .settingsFile (({} : Settings).applyFile path content)
    | none => throw (.undecodable path)
  let registers ← host.envValue? Settings.registersVariable
  let jobs ← host.envValue? Settings.jobsVariable
  let verbose ← host.envValue? Settings.verboseVariable
  let s := s.applyEnvironment fun name =>
    if name = Settings.registersVariable then registers
    else if name = Settings.jobsVariable then jobs
    else verbose
  let s := s.applyFlags a
  match s.fault? with
  | some fault => throw (.settings fault)
  | none => return s

/-- Reads a program and finds out what its names mean. -/
def load (host : Host m) (path : String) :
    ExceptT CommandError m (Source.Program × Source.Attributes) := do
  let bytes ← orFail .readProgram (← host.readFile path)
  match String.fromUTF8? bytes with
  | none => throw (.undecodable path)
  | some content =>
    let p ← orFail (.program path) (Source.Program.read content)
    let t ← orFail (fun ds => .program path (.diagnosed ds)) p.resolve
    return (p, t)

/-- Runs a compiled program; the result is the exit code. -/
def interpret (host : Host m) (c : Compiled) : ExceptT CommandError m UInt8 := do
  let input ← host.input
  match (c.machine (some input)).run with
  | none => throw .unfinished
  | some (ending, after) =>
    -- The output comes first, also when the run ended in an error.
    host.printBytes after.state.output.toList
    match ending with
    | .value v => return v.toUInt64.toUInt8
    | .exit v => return v.toUInt64.toUInt8
    | .error e => throw (.runtime e)

/-- Writes the assembly of a compiled program. -/
def emit (host : Host m) (path : String) (a : Arguments) (c : Compiled) :
    ExceptT CommandError m UInt8 := do
  let text ← orFail .compile c.assembly
  let given := a.text "output"
  let name := if given.isEmpty then assemblyName path else given
  if name = "-" then host.print text
  else orFail .writeAssembly (← host.writeFile name text)
  return 0

/-- Compiles a program file. -/
def compileFile (host : Host m) (path : String) (a : Arguments) : ExceptT CommandError m UInt8 := do
  let s ← settings host a
  let (p, t) ← load host path
  let (result, listings) := compile (s.options a.wanted) p { attrs := t }
  -- What has been listed before a failure is shown all the same.
  host.print listings.text
  let c ← orFail .compile result
  if s.verbose then
    c.units.forM fun u => host.complain
      ("allocated " ++ u.code.frame.label ++ ": " ++ toString u.allocation.rounds ++ " rounds, "
        ++ toString u.allocation.spilled.length ++ " spills\n")
  if a.isOn "run" then interpret host c else emit host path a c

/-- Does what the arguments say. -/
def execute (host : Host m) (args : List String) : ExceptT CommandError m UInt8 := do
  let a ← orFail .flag (Arguments.read commandFlags (args.map doubleDash))
  if a.isOn "help" then
    host.print helpText
    return 0
  else if a.isOn "version" then
    host.print versionText
    return 0
  else match a.words with
    | [] =>
      host.print helpText
      return 0
    | [path] => compileFile host path a
    | words => throw (.tooManyFiles words.length)

/-- Runs the command; the result is the exit code. -/
def run (host : Host m) (args : List String) : m UInt8 := do
  match ← (execute host args).run with
  | .ok code => return code
  | .error e =>
    host.complain ("prevc: " ++ e.message ++ "\n")
    return 1

end Command

end MmixBackend
