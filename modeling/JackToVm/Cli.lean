import JackToVm.Build
import JackToVm.Token.Table

/-!
The command line: two commands, each with a path. Anything else gets the usage text.
-/

namespace JackToVm

/-- What the command line asks for. -/
inductive Command where
  | build (path : Path)
  | tokens (path : Path)
  | usage
deriving DecidableEq, Repr, Inhabited

namespace Command

/-- Reads the arguments. Those behind the path do not matter. -/
def ofArgs : List String → Command
  | "build" :: path :: _ => .build { text := path }
  | "tokens" :: path :: _ => .tokens { text := path }
  | _ => .usage

def version : String := "0.1.0"

def usageText : String :=
  "\n".intercalate [
    s!"jackc v{version}",
    "",
    "usage: jackc CMD PATH",
    "",
    "commands:",
    "    build   Compile a .jack file, or every .jack file in a directory",
    "    tokens  Print the token stream of a .jack file",
    "",
    "examples:",
    "    jackc build Pong",
    "    jackc build Pong/Main.jack",
    "    jackc tokens Pong/Ball.jack",
    "",
    "configuration:",
    "    An optional jackc.yaml next to the sources may set",
    "    `output_dir` (default \"output\") and `extension` (default \"vm\").",
    "",
    ""]

/-- The exit code of a command line that cannot be understood. -/
def usageCode : UInt32 := 64

variable {m : Type → Type} [Monad m] (host : Host m) (reader : ConfigReader)

def printTokens (path : Path) : m (Except BuildError Unit) := do
  match ← host.readText path with
  | .error e => return .error (.file e)
  | .ok source =>
    host.print (Item.table source)
    return .ok ()

/-- Logs an error. Gives the exit code. -/
def exitCode : Except BuildError Unit → m UInt32
  | .ok () => return 0
  | .error e => do
    host.log { level := .error, message := e.message }
    return 1

/-- Runs a command. Gives the exit code. -/
def run : Command → m UInt32
  | build path => do
    host.log { level := .info, message := s!"compiling {path.text}" }
    exitCode host (← JackToVm.build host reader path)
  | tokens path => do exitCode host (← printTokens host path)
  | usage => do
    host.print usageText
    return usageCode

end Command

end JackToVm
