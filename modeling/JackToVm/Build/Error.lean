import JackToVm.Config
import JackToVm.File.Error
import JackToVm.Pass.Error
import JackToVm.Path

/-!
Why a build, or the compilation of one file, fails.
-/

namespace JackToVm

/-- Why a build fails. -/
inductive BuildError where
  | compile (cause : CompileError)
  | file (cause : FileError)
  | config (cause : ConfigError)
  /-- A path leads neither to a directory nor to a file with the extension of sources. -/
  | notASource (path : Path)
  /-- Some of the classes did not compile. Each of them was reported before. -/
  | failed (failed total : Nat)
deriving DecidableEq, Repr, Inhabited

namespace BuildError

def reason : BuildError → String
  | compile cause => cause.message
  | file cause => cause.message
  | config _ => "invalid configuration"
  | notASource path => s!"not a .jack file or directory: {path.text}"
  | failed n total => s!"{n} of {total} classes failed to compile"

def message (e : BuildError) : String :=
  s!"jackc error: {e.reason}"

/-- The message for an error in a file, led by the file's path and the place of the error, if it has one. -/
def report (source : Path) (e : BuildError) : String :=
  match e with
  | compile cause =>
    match cause.place? with
    | some (line, column) => s!"{source.text}:{line}:{column}: {cause.message}"
    | none => s!"{source.text}: {e.message}"
  | _ => s!"{source.text}: {e.message}"

end BuildError

end JackToVm
