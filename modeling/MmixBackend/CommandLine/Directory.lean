import MmixBackend.CommandLine.Command

/-!
# Directories in memory

A host that is a value: a directory with files, an environment, an input, and what has been written.
The command can be run on it without any system, and what it did can be looked at afterwards.
-/

namespace MmixBackend

/-- A directory and what a command has written. Paths are lists of names. -/
structure Directory where
  /-- The files, the most recent version first. -/
  files : List (List String × ByteArray) := []
  environment : List (String × String) := []
  input : ByteReader := { bytes := [] }
  /-- What has been printed. -/
  output : ByteArray := .empty
  complaints : String := ""

namespace Directory

/-- The names along a path from the directory on. -/
def pathNames (path : String) : List String :=
  (path.splitOn "/").foldl (fun names part =>
    if part = "" ∨ part = "." then names
    else if part = ".." then names.dropLast
    else names ++ [part]) []

/-- A directory with files given by their paths. -/
def ofFiles (files : List (String × ByteArray)) : Directory :=
  { files := files.map fun (path, content) => (pathNames path, content) }

/-- The content of a file. -/
def file? (d : Directory) (names : List String) : Option ByteArray := d.files.lookup names

/-- Whether there is a directory at a place, that is, files below it. -/
def isDirectory (d : Directory) (names : List String) : Bool :=
  names.isEmpty || d.files.any fun (p, _) => names.length < p.length && names.isPrefixOf p

/-- Why nothing can be at a place: a file is on the way, or the way is not there. -/
def obstacle (d : Directory) (names : List String) : FileCause :=
  let above := (List.range names.length).map names.take
  if above.any fun p => (d.file? p).isSome then .notDirectory else .missing

/-- Whether a path leads away from the directory. -/
def isAbsolute (path : String) : Bool := path.startsWith "/"

/-- Reads a file. -/
def read (d : Directory) (path : String) : Except FileError ByteArray :=
  let names := pathNames path
  if path = "" then .error ⟨"open", path, .missing⟩
  else match d.file? names with
    | some content =>
      if path.endsWith "/" then .error ⟨"open", path, .notDirectory⟩ else .ok content
    | none =>
      if d.isDirectory names && !isAbsolute path then .error ⟨"read", path, .directory⟩
      else .error ⟨"open", path, d.obstacle names⟩

/-- Writes a file. -/
def write (d : Directory) (path text : String) : Except FileError Directory :=
  let names := pathNames path
  let fail (cause : FileCause) : Except FileError Directory := .error ⟨"open", path, cause⟩
  if path = "" then fail .missing
  else if d.isDirectory names || path.endsWith "/" then fail .directory
  else if !d.isDirectory names.dropLast || isAbsolute path then fail (d.obstacle names)
  else .ok { d with files := (names, text.toUTF8) :: d.files.filter fun (p, _) => p ≠ names }

/-- A directory as a host. -/
def host : Host (StateM Directory) where
  readFile path := do return (← get).read path
  writeFile path text := do
    match (← get).write path text with
    | .ok d =>
      set d
      return .ok ()
    | .error e => return .error e
  envValue? name := do return (← get).environment.lookup name
  input := do return (← get).input
  print s := modify fun d => { d with output := d.output ++ s.toUTF8 }
  printBytes bs := modify fun d => { d with output := d.output ++ ⟨bs.toArray⟩ }
  complain s := modify fun d => { d with complaints := d.complaints ++ s }

/-- The files that are new or different after something was done to a directory. -/
def changes (before after : Directory) : List (List String × ByteArray) :=
  after.files.filter fun (p, c) => (before.file? p).map (·.toList) ≠ some c.toList

end Directory

/-- Runs the command in a directory. -/
def Command.runIn (d : Directory) (args : List String) : UInt8 × Directory :=
  (Command.run Directory.host args).run d

end MmixBackend
