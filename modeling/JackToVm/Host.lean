import JackToVm.File.Disk
import JackToVm.Log

/-!
What a build needs from its surroundings: files, a log, and a place to print to. A `Host` gives these in
some monad. A `Session` is a host that can be looked at: a disk in memory, and what was logged and printed.
-/

namespace JackToVm

/-- The services that a build uses. -/
structure Host (m : Type → Type) where
  /-- Tells whether a path leads to a directory. -/
  isDirectory : Path → m Bool
  /-- Tells whether a path leads to a file. -/
  isFile : Path → m Bool
  /-- The names in a directory, in any order. -/
  names : Path → m (Except FileError (List String))
  /-- The content of a file. -/
  read : Path → m (Except FileError ByteArray)
  /-- Makes a file, or gives it new content. -/
  write : Path → ByteArray → m (Except FileError Unit)
  /-- Makes a directory and those above it that are not there. -/
  makeDirectories : Path → m (Except FileError Unit)
  log : Record → m Unit
  print : String → m Unit

namespace Host

/-- The content of a file that is a text. -/
def readText {m : Type → Type} [Monad m] (host : Host m) (p : Path) : m (Except FileError String) := do
  match ← host.read p with
  | .ok content =>
    match String.fromUTF8? content with
    | some text => return .ok text
    | none => return .error .notText
  | .error e => return .error e

end Host

/-- A disk in memory, with everything that was logged and printed. -/
structure Session where
  disk : Disk := {}
  log : Array Record := #[]
  printed : String := ""
deriving Inhabited

namespace Session

def change {α : Type} (f : Disk → α × Disk) : StateM Session α :=
  fun s =>
    let (result, disk) := f s.disk
    (result, { s with disk })

/-- The host that works on the disk of a session. -/
def host : Host (StateM Session) where
  isDirectory p := return (← get).disk.isDirectory p
  isFile p := return (← get).disk.isFile p
  names p := return (← get).disk.names p
  read p := return (← get).disk.read p
  write p content := change (·.attempt (·.write p content))
  makeDirectories p := change (·.makeDirectories p)
  log record := modify fun s => { s with log := s.log.push record }
  print text := modify fun s => { s with printed := s.printed ++ text }

end Session

end JackToVm
