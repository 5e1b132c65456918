import JackToVm.Proofs.Discovery

/-!
What a build does on a session, one source after the other. Each source is an `Attempt`, with the session and the
label counter in front of it. A build is the attempts at its sources in their order (`run_compileFiles`), and an
attempt either writes one file or leaves the disk as it is (`Attempt.cases`).
-/

namespace JackToVm

/-! ### Sessions -/

namespace Session

theorem run_write (s : Session) (p : Path) (content : ByteArray) :
    (host.write p content).run s =
      match s.disk.write p content with
      | .error e => (.error e, s)
      | .ok disk => (.ok (), { s with disk }) := by
  unfold host change Disk.attempt
  dsimp only [StateT.run]
  cases s.disk.write p content <;> rfl

theorem disk_run_log (s : Session) (records : List Record) : ((records.forM host.log).run s).2.disk = s.disk := by
  induction records generalizing s with
  | nil => rfl
  | cons record records ih => exact ih _

end Session

/-! ### One source -/

section
variable (source outputDir : Path) (extension : String) (labels : Vm.Labels) (s : Session)

theorem run_compileFile : (compileFile Session.host source outputDir extension labels).run s =
    match s.disk.readText source with
    | .error e => ((labels, .error (.file e)), s)
    | .ok text =>
      let c := compile text labels.next
      let behind : Vm.Labels := { next := labels.next + c.draws }
      let s := ((logCompilation Session.host c).run s).2
      match c.result with
      | .error e => ((behind, .error (.compile e)), s)
      | .ok () =>
        let path := outputPath source outputDir extension
        match s.disk.write path c.text.toUTF8 with
        | .error e => ((behind, .error (.file e)), s)
        | .ok disk => ((behind, .ok path), { s with disk }) := by
  simp only [compileFile, Session.run_bind, s.run_readText source]
  cases s.disk.readText source with
  | error e => rfl
  | ok text =>
    simp only [Session.run_bind]
    cases (compile text labels.next).result with
    | error e => rfl
    | ok =>
      simp only [Session.run_bind, Session.run_write]
      cases Disk.write _ _ _ <;> rfl

theorem disk_run_logOutcome (outcome : Except BuildError Path) :
    ((logOutcome Session.host source outcome).run s).2.disk = s.disk := by
  cases outcome <;> rfl

end

/-- A source in its turn, with the session and the label counter in front of it. -/
structure Attempt where
  source : Path
  outputDir : Path
  extension : String
  before : Session
  labels : Vm.Labels

namespace Attempt

/-- Compiles the source and reports how that went. -/
def run (a : Attempt) : (Vm.Labels × Except BuildError Path) × Session :=
  StateT.run (m := Id) (do
    let (labels, outcome) ← compileFile Session.host a.source a.outputDir a.extension a.labels
    logOutcome Session.host a.source outcome
    return (labels, outcome)) a.before

/-- The path of the file that was written, or why none was. -/
def outcome (a : Attempt) : Except BuildError Path :=
  a.run.1.2

/-- The label counter behind it. -/
def nextLabels (a : Attempt) : Vm.Labels :=
  a.run.1.1

/-- The session behind it. -/
def after (a : Attempt) : Session :=
  a.run.2

/-- The path of the file that the source compiles to. -/
def path (a : Attempt) : Path :=
  outputPath a.source a.outputDir a.extension

/-- The code of a text, with the labels that are free. -/
def codeOf (a : Attempt) (text : String) : ByteArray :=
  (compile text a.labels.next).text.toUTF8

/-- How an attempt ends. The source is no text or is no class, or it compiles and its code cannot be written or is
written. The disk changes in the last case only. -/
inductive Ends (a : Attempt) : Prop where
  | unreadable {e : FileError} (read : a.before.disk.readText a.source = .error e)
      (outcome : a.outcome = .error (.file e)) (disk : a.after.disk = a.before.disk)
  | rejected {text : String} {e : CompileError} (read : a.before.disk.readText a.source = .ok text)
      (result : (compile text a.labels.next).result = .error e) (outcome : a.outcome = .error (.compile e))
      (disk : a.after.disk = a.before.disk)
  | unwritable {text : String} {e : FileError} (read : a.before.disk.readText a.source = .ok text)
      (result : (compile text a.labels.next).result = .ok ())
      (write : a.before.disk.write a.path (a.codeOf text) = .error e) (outcome : a.outcome = .error (.file e))
      (disk : a.after.disk = a.before.disk)
  | written {text : String} (read : a.before.disk.readText a.source = .ok text)
      (result : (compile text a.labels.next).result = .ok ())
      (write : a.before.disk.write a.path (a.codeOf text) = .ok a.after.disk) (outcome : a.outcome = .ok a.path)

theorem ends (a : Attempt) : a.Ends := by
  have hdisk := disk_run_logOutcome a.source
    ((compileFile Session.host a.source a.outputDir a.extension a.labels).run a.before).2 a.outcome
  have houtcome : a.outcome =
      ((compileFile Session.host a.source a.outputDir a.extension a.labels).run a.before).1.2 := rfl
  have hlog (c : Compilation) : ((logCompilation Session.host c).run a.before).2.disk = a.before.disk :=
    a.before.disk_run_log _
  change a.after.disk = _ at hdisk
  rw [run_compileFile] at houtcome hdisk
  cases hread : a.before.disk.readText a.source with
  | error e =>
    simp only [hread] at houtcome hdisk
    exact .unreadable hread houtcome hdisk
  | ok text =>
    cases hresult : (compile text a.labels.next).result with
    | error e =>
      simp only [hread, hresult, hlog] at houtcome hdisk
      exact .rejected hread hresult houtcome hdisk
    | ok =>
      cases hwrite : a.before.disk.write a.path (a.codeOf text) with
      | error e =>
        rw [path, codeOf] at hwrite
        simp only [hread, hresult, hlog, hwrite] at houtcome hdisk
        exact .unwritable hread hresult hwrite houtcome hdisk
      | ok disk =>
        rw [path, codeOf] at hwrite
        simp only [hread, hresult, hlog, hwrite] at houtcome hdisk
        refine .written hread hresult ?_ houtcome
        rw [hdisk]
        exact hwrite

/-- An attempt either leaves the disk as it is, or writes the code of its source and nothing else. -/
theorem cases (a : Attempt) :
    (∃ e, a.outcome = .error e ∧ a.after.disk = a.before.disk) ∨
    ∃ text, a.before.disk.readText a.source = .ok text ∧ (compile text a.labels.next).result = .ok () ∧
      a.before.disk.write a.path (a.codeOf text) = .ok a.after.disk ∧ a.outcome = .ok a.path := by
  cases a.ends with
  | unreadable _ outcome disk => exact Or.inl ⟨_, outcome, disk⟩
  | rejected _ _ outcome disk => exact Or.inl ⟨_, outcome, disk⟩
  | unwritable _ _ _ outcome disk => exact Or.inl ⟨_, outcome, disk⟩
  | written read result write outcome => exact Or.inr ⟨_, read, result, write, outcome⟩

end Attempt

/-! ### One source after the other -/

/-- The attempts at sources. The session and the counter go from one to the next. -/
def attemptsFrom (outputDir : Path) (extension : String) : List Path → Session → Vm.Labels → List Attempt
  | [], _, _ => []
  | source :: sources, before, labels =>
    let a : Attempt := { source, outputDir, extension, before, labels }
    a :: attemptsFrom outputDir extension sources a.after a.nextLabels

/-- The session behind attempts that start in a session. -/
def Session.behind (s : Session) (as : List Attempt) : Session :=
  (as.getLast?.map Attempt.after).getD s

theorem Session.behind_cons (s : Session) (a : Attempt) (as : List Attempt) :
    s.behind (a :: as) = a.after.behind as := by
  rw [behind, behind, List.getLast?_cons]
  cases as.getLast? <;> rfl

section
variable (outputDir : Path) (extension : String)

/-- Compiling sources is the attempts at them. -/
theorem run_compileFiles (sources : List Path) (s : Session) (labels : Vm.Labels) :
    (compileFiles Session.host outputDir extension sources labels).run s =
      ((attemptsFrom outputDir extension sources s labels).countP (!·.outcome.isOk),
        s.behind (attemptsFrom outputDir extension sources s labels)) := by
  induction sources generalizing s labels with
  | nil => rfl
  | cons source sources ih =>
    rw [attemptsFrom, List.countP_cons, Session.behind_cons]
    have hrun : (compileFiles Session.host outputDir extension (source :: sources) labels).run s =
        (let a : Attempt := { source, outputDir, extension, before := s, labels }
        let rest := (compileFiles Session.host outputDir extension sources a.nextLabels).run a.after
        (if a.outcome.isOk then rest.1 else rest.1 + 1, rest.2)) := rfl
    rw [hrun]
    simp only [ih]
    cases Attempt.outcome _ <;> rfl

theorem map_source_attemptsFrom (sources : List Path) (s : Session) (labels : Vm.Labels) :
    (attemptsFrom outputDir extension sources s labels).map (·.source) = sources := by
  induction sources generalizing s labels with
  | nil => rfl
  | cons source sources ih => rw [attemptsFrom, List.map_cons, ih]

variable {outputDir extension}

theorem mem_of_mem_attemptsFrom {sources : List Path} {s : Session} {labels : Vm.Labels} {a : Attempt}
    (h : a ∈ attemptsFrom outputDir extension sources s labels) : a.source ∈ sources := by
  rw [← map_source_attemptsFrom outputDir extension sources s labels]
  exact List.mem_map_of_mem h

/-- An attempt stands behind those at the sources in front of its own, and the others go on from it. -/
theorem exists_of_mem_attemptsFrom {sources : List Path} {s : Session} {labels : Vm.Labels} {a : Attempt}
    (h : a ∈ attemptsFrom outputDir extension sources s labels) :
    ∃ front rest, sources = front ++ a.source :: rest ∧ a.outputDir = outputDir ∧ a.extension = extension ∧
      a.before = s.behind (attemptsFrom outputDir extension front s labels) ∧
      s.behind (attemptsFrom outputDir extension sources s labels) =
        a.after.behind (attemptsFrom outputDir extension rest a.after a.nextLabels) := by
  induction sources generalizing s labels with
  | nil => cases h
  | cons source sources ih =>
    rcases List.mem_cons.mp h with rfl | h
    · exact ⟨[], sources, rfl, rfl, rfl, rfl, s.behind_cons _ _⟩
    · obtain ⟨front, rest, rfl, hdir, hext, hbefore, hbehind⟩ := ih h
      refine ⟨source :: front, rest, rfl, hdir, hext, ?_, ?_⟩
      · rw [hbefore, attemptsFrom, Session.behind_cons]
      · rw [attemptsFrom, Session.behind_cons, hbehind]

end

/-! ### A whole build -/

def Sources.outputDir (sources : Sources) (config : Config) : Path :=
  sources.baseDir.join config.outputDir

namespace Session

/-- The session with a directory made in it. -/
def withDirectory (s : Session) (p : Path) : Session :=
  { s with disk := (s.disk.makeDirectories p).2 }

/-- The attempts at the sources of a build. There are none when the output directory cannot be made. -/
def attemptsAt (s : Session) (sources : Sources) (config : Config) : List Attempt :=
  let outputDir := sources.outputDir config
  match (s.disk.makeDirectories outputDir).1 with
  | .ok () => attemptsFrom outputDir config.extension sources.files (s.withDirectory outputDir) { next := 0 }
  | .error _ => []

/-- The attempts of a build. There are none when it has no sources or no configuration. -/
def attempts (s : Session) (reader : ConfigReader) (input : Path) : List Attempt :=
  match (discover host input).run s with
  | (.ok sources, s) =>
    match (loadConfig host reader sources.baseDir).run s with
    | (.ok config, s) => s.attemptsAt sources config
    | (.error _, _) => []
  | (.error _, _) => []

end Session

/-- Building sources makes the output directory, and then the attempts. It succeeds when they all do. -/
theorem run_buildSources (sources : Sources) (config : Config) (s : Session) :
    let made := s.disk.makeDirectories (sources.outputDir config)
    let built := (buildSources Session.host sources config).run s
    let failed := (s.attemptsAt sources config).countP (!·.outcome.isOk)
    built.2.disk = ((s.withDirectory (sources.outputDir config)).behind (s.attemptsAt sources config)).disk ∧
    built.1 =
      match made.1 with
      | .error e => .error (.file e)
      | .ok () => if failed = 0 then .ok () else .error (.failed failed sources.files.length) := by
  have hmake : (Session.host.makeDirectories (sources.outputDir config)).run s =
      ((s.disk.makeDirectories (sources.outputDir config)).1, s.withDirectory (sources.outputDir config)) := rfl
  dsimp only
  rw [buildSources, Session.run_bind, ← Sources.outputDir, hmake, Session.attemptsAt]
  cases (s.disk.makeDirectories (sources.outputDir config)).1 with
  | error e => exact ⟨rfl, rfl⟩
  | ok =>
    dsimp only
    rw [Session.run_bind, run_compileFiles]
    exact ⟨rfl, rfl⟩

section
variable {s : Session} {reader : ConfigReader} {input : Path} {sources : Sources} {config : Config}
  (hsources : ((discover Session.host input).run s).1 = .ok sources)
  (hconfig : ((loadConfig Session.host reader sources.baseDir).run s).1 = .ok config)

include hsources hconfig

/-- A build with sources and a configuration is the building of these sources. -/
theorem run_build : (build Session.host reader input).run s =
    (buildSources Session.host sources config).run ((loadConfig Session.host reader sources.baseDir).run s).2 := by
  have hdiscover : (discover Session.host input).run s = (.ok sources, s) :=
    Prod.ext hsources (by rw [run_discover])
  rw [build, Session.run_bind, hdiscover]
  dsimp only
  rw [Session.run_bind, hconfig]

theorem attempts_eq_attemptsAt : s.attempts reader input =
    ((loadConfig Session.host reader sources.baseDir).run s).2.attemptsAt sources config := by
  have hdiscover : (discover Session.host input).run s = (.ok sources, s) :=
    Prod.ext hsources (by rw [run_discover])
  have hload : (loadConfig Session.host reader sources.baseDir).run s = (.ok config, _) := Prod.ext hconfig rfl
  rw [Session.attempts, hdiscover]
  dsimp only
  rw [hload]

/-- A build that succeeds made an attempt at each of its sources, and all of them succeeded. -/
theorem attempts_of_build_ok (hok : ((build Session.host reader input).run s).1 = .ok ()) :
    (s.attempts reader input).map (·.source) = sources.files ∧
      ∀ a ∈ s.attempts reader input, a.outcome.isOk = true := by
  rw [run_build hsources hconfig, (run_buildSources sources config _).2] at hok
  rw [attempts_eq_attemptsAt hsources hconfig]
  split at hok
  case h_1 => cases hok
  case h_2 hmade =>
    split at hok
    case isFalse => cases hok
    case isTrue hfailed =>
      refine ⟨?_, fun a ha => by simpa using List.countP_eq_zero.mp hfailed a ha⟩
      rw [Session.attemptsAt, hmade]
      exact map_source_attemptsFrom _ _ _ _ _

end

end JackToVm
