import JackToVm.Build.Error
import JackToVm.Compile
import JackToVm.Host

/-!
Building a directory of classes, or a single class. Every source compiles to a file of its own, written
only when the whole class compiled. A class that fails is reported and passed over. One label counter
serves all classes of a build, and the numbers that a failed class drew stay used.
-/

namespace JackToVm

/-- The sources of a build. -/
structure Sources where
  /-- The directory they are in. -/
  baseDir : Path
  files : List Path
deriving DecidableEq, Repr, Inhabited

def sourceExtension : String := "jack"

def configName : String := "jackc.yaml"

/-- Tells whether a path has the extension of sources. -/
def Path.isSource (p : Path) : Bool :=
  p.extension? = some sourceExtension

/-- The path of the file that a source compiles to. -/
def outputPath (source outputDir : Path) (extension : String) : Path :=
  (outputDir.join (source.stem?.getD "")).withExtension extension

def sourceDir (source : Path) : Path :=
  match source.parent? with
  | some parent => if parent.text = "" then { text := "." } else parent
  | none => { text := "." }

/-- The paths of the names in a directory, in ascending order. -/
def entryPaths (dir : Path) (names : List String) : List Path :=
  (names.mergeSort fun a b => decide (a ≤ b)).map dir.join

section
variable {m : Type → Type} [Monad m] (host : Host m) (reader : ConfigReader)

/-- Finds the sources at a path: the path itself, or all sources in the directory that it leads to. -/
def discover (input : Path) : m (Except BuildError Sources) := do
  if ← host.isDirectory input then
    match ← host.names input with
    | .ok names =>
      let files ← (entryPaths input names).filterM fun p => do
        if p.isSource then host.isFile p else return false
      return .ok { baseDir := input, files }
    | .error e => return .error (.file e)
  else if input.isSource && (← host.isFile input) then
    return .ok { baseDir := sourceDir input, files := [input] }
  else return .error (.notASource input)

/-- Loads the configuration of a directory, with a reader of its format. Without a configuration file it is the
default one. -/
def loadConfig (dir : Path) : m (Except BuildError Config) := do
  let path := dir.join configName
  match ← host.readText path with
  | .error .notFound => return .ok {}
  | .error e => return .error (.file e)
  | .ok text =>
    match Config.parse reader text with
    | .error e => return .error (.config e)
    | .ok config =>
      host.log { level := .debug, message := s!"loaded build configuration from {path.text}: {config.describe}" }
      return .ok config

def logCompilation (c : Compilation) : m Unit :=
  (c.trace.filterMap Event.record?).forM host.log

/-- Compiles a file. Gives the label counter afterwards, and the path of the file that was written. -/
def compileFile (source outputDir : Path) (extension : String) (labels : Vm.Labels) :
    m (Vm.Labels × Except BuildError Path) := do
  match ← host.readText source with
  | .error e => return (labels, .error (.file e))
  | .ok text =>
    let c := compile text labels.next
    logCompilation host c
    let labels : Vm.Labels := { next := labels.next + c.draws }
    match c.result with
    | .error e => return (labels, .error (.compile e))
    | .ok () =>
      let path := outputPath source outputDir extension
      match ← host.write path c.text.toUTF8 with
      | .error e => return (labels, .error (.file e))
      | .ok () => return (labels, .ok path)

def logOutcome (source : Path) : Except BuildError Path → m Unit
  | .ok path => host.log { level := .info, message := s!"compiled {source.text} -> {path.text}" }
  | .error e => host.log { level := .error, message := e.report source }

/-- Compiles files one after another. Gives how many of them failed. -/
def compileFiles (outputDir : Path) (extension : String) : List Path → Vm.Labels → m Nat
  | [], _ => return 0
  | source :: sources, labels => do
    let (labels, outcome) ← compileFile host source outputDir extension labels
    logOutcome host source outcome
    let failed ← compileFiles outputDir extension sources labels
    return if outcome.isOk then failed else failed + 1

def buildSources (sources : Sources) (config : Config) : m (Except BuildError Unit) := do
  let outputDir := sources.baseDir.join config.outputDir
  match ← host.makeDirectories outputDir with
  | .error e => return .error (.file e)
  | .ok () =>
    let total := sources.files.length
    let failed ← compileFiles host outputDir config.extension sources.files { next := 0 }
    host.log { level := .info, message := s!"{total - failed} of {total} classes compiled" }
    return if failed = 0 then .ok () else .error (.failed failed total)

def build (input : Path) : m (Except BuildError Unit) := do
  match ← discover host input with
  | .error e => return .error e
  | .ok sources =>
    match ← loadConfig host reader sources.baseDir with
    | .error e => return .error e
    | .ok config => buildSources host sources config

end

end JackToVm
