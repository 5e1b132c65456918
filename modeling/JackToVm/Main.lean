import JackToVm.Cli

/-!
The program: runs the command line on the files of the system. Records of the level `logLevel` and of all
more severe ones go to the standard output, where the rest is printed as well.
-/

namespace JackToVm

def logLevel : Level := .info

namespace FileError

/-- The error that an error of the system stands for. -/
def ofSystem (e : IO.Error) : FileError :=
  match e with
  | .noFileOrDirectory .. => notFound
  | .alreadyExists .. => alreadyExists
  | .inappropriateType _ 20 _ => notADirectory
  | .inappropriateType _ 21 _ => isADirectory
  | e => other e.toString

def catching {α : Type} (action : IO α) : IO (Except FileError α) := do
  try return .ok (← action)
  catch e => return .error (ofSystem e)

end FileError

namespace Host

/-- The sort of file that a path leads to, if it leads to anything. -/
def fileType? (p : Path) : IO (Option IO.FS.FileType) := do
  try
    let place ← IO.FS.realPath p.text
    return some (← place.metadata).type
  catch _ => return none

def systemNames (p : Path) : IO (List String) := do
  let place ← IO.FS.realPath p.text
  return (← place.readDir).toList.map (·.fileName)

/-- Prints a record, if the log keeps its level. -/
def printRecord (record : Record) : IO Unit := do
  if logLevel.keeps record.level then IO.println s!"{record.level.text} {record.message}"

/-- The host that works on the files of the system. -/
def system : Host IO where
  isDirectory p := return (← fileType? p) == some .dir
  isFile p := return (← fileType? p) == some .file
  names p := FileError.catching (systemNames p)
  read p := FileError.catching (IO.FS.readBinFile p.text)
  write p content := FileError.catching (IO.FS.writeBinFile p.text content)
  makeDirectories p := FileError.catching (unless p.text = "" do IO.FS.createDirAll p.text)
  log record := printRecord record
  print text := IO.print text

end Host

end JackToVm

def main (args : List String) : IO UInt32 :=
  (JackToVm.Command.ofArgs args).run JackToVm.Host.system JackToVm.Config.ofText
