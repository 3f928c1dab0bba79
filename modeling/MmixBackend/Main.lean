import MmixBackend.CommandLine.Command

/-!
# The program

Runs the command on the real system.
-/

namespace MmixBackend

/-- The cause of a failed action on a file. -/
def fileCause : IO.Error → FileCause
  | .noFileOrDirectory .. => .missing
  | e => .other (toString e)

/-- Does something to a file and reports failures. -/
def fileAction {α : Type} (action path : String) (act : IO α) : IO (Except FileError α) := do
  try
    return .ok (← act)
  catch e =>
    return .error ⟨action, path, fileCause e⟩

/-- Everything on a stream, up to its end or an error. -/
partial def readAll (name : String) (stream : IO.FS.Stream) (found : ByteArray) : IO ByteReader := do
  match ← (stream.read 65536).toBaseIO with
  | .error e =>
    return { bytes := found.toList, fault := some (FileError.message ⟨"read", name, fileCause e⟩) }
  | .ok more =>
    if more.isEmpty then return { bytes := found.toList } else readAll name stream (found ++ more)

/-- The real system. -/
def systemHost : Host IO where
  readFile path := fileAction "open" path (IO.FS.readBinFile path)
  writeFile path text := fileAction "open" path (IO.FS.writeFile path text)
  envValue? name := IO.getEnv name
  input := do readAll "/dev/stdin" (← IO.getStdin) .empty
  print s := IO.print s
  printBytes bs := do (← IO.getStdout).write ⟨bs.toArray⟩
  complain s := IO.eprint s

end MmixBackend

/-- Runs the command with the arguments of the program. -/
def main (args : List String) : IO UInt32 := do
  return (← MmixBackend.Command.run MmixBackend.systemHost args).toUInt32
