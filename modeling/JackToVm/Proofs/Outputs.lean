import JackToVm.Proofs.Attempts

/-!
Where the outputs of a build go, and what they leave alone. A source compiles to the file of its stem in the
output directory, as long as the stem has no extension of its own; a dotted stem loses the part behind its last
dot. When no stem is dotted, every class that compiles has its code in a file of its own after the build, and
every source is as it was (`outputs_of_build`).
-/

namespace JackToVm
open JackToVm.Path (IsName Undotted extend splitName)

/-! ### Filling a directory -/

/-- A disk that grew by files of some names in one directory, and that is the same elsewhere. -/
structure Disk.Fills (d e : Disk) (dir : Path) (names : List String) : Prop where
  grows : d.Grows e
  frame : ∀ place, e.get? place ≠ d.get? place →
    ∃ above, e.locate dir = .ok above ∧ ∃ name ∈ names, place = above ++ [name]

namespace Disk.Fills
variable {d e f : Disk} {dir : Path} {names names' : List String}

theorem refl (d : Disk) (dir : Path) : d.Fills d dir [] :=
  ⟨.refl d, fun _ h => absurd rfl h⟩

theorem trans (h : d.Fills e dir names) (h' : e.Fills f dir names') : d.Fills f dir (names ++ names') := by
  refine ⟨h.grows.trans h'.grows, fun place hplace => ?_⟩
  by_cases hlate : f.get? place = e.get? place
  · obtain ⟨above, habove, name, hname, heq⟩ := h.frame place (hlate ▸ hplace)
    exact ⟨above, h'.grows.locate habove, name, List.mem_append_left _ hname, heq⟩
  · obtain ⟨above, habove, name, hname, heq⟩ := h'.frame place hlate
    exact ⟨above, habove, name, List.mem_append_right _ hname, heq⟩

theorem mono (h : d.Fills e dir names) (hsub : names ⊆ names') : d.Fills e dir names' := by
  refine ⟨h.grows, fun place hplace => ?_⟩
  obtain ⟨above, habove, name, hname, heq⟩ := h.frame place hplace
  exact ⟨above, habove, name, hsub hname, heq⟩

/-- What is not at the place of one of the names stays. -/
theorem get?_eq (h : d.Fills e dir names) {place : Location}
    (hfree : ∀ above, e.locate dir = .ok above → ∀ name ∈ names, place ≠ above ++ [name]) :
    e.get? place = d.get? place := by
  by_contra hne
  obtain ⟨above, habove, name, hname, heq⟩ := h.frame place hne
  exact hfree above habove name hname heq

end Disk.Fills

/-- A new file in a directory fills it by its name. -/
theorem Disk.fills_set {d : Disk} {dir : Path} {above : Location} {name : String} (habove : d.locate dir = .ok above)
    (hplace : d.get? (above ++ [name]) ≠ some .directory) (node : Node) :
    d.Fills (d.set (above ++ [name]) node) dir [name] := by
  have hne : above ++ [name] ≠ [] := by simp
  have hgrows := grows_set hne hplace node
  refine ⟨hgrows, fun place hchanged => ⟨above, hgrows.locate habove, name, List.mem_singleton_self _, ?_⟩⟩
  exact eq_of_get?_set_ne hne hchanged

/-! ### Names of outputs -/

/-- A source compiles to a file in the output directory. The name of the file is the stem up to its last dot, with
the extension of outputs. -/
theorem outputPath_eq {source : Path} {stem : String} (hstem : source.stem? = some stem) (h : IsName stem)
    (hcut : IsName (splitName stem).1) (outputDir : Path) (extension : String) :
    outputPath source outputDir extension = outputDir.join (extend (splitName stem).1 extension) := by
  rw [outputPath, hstem]
  exact Path.withExtension_join h hcut outputDir extension

/-- The path of the file that a stem has in the output directory. -/
theorem outputPath_of_undotted {source : Path} {stem : String} (hstem : source.stem? = some stem) (h : IsName stem)
    (hdot : Undotted stem) (outputDir : Path) (extension : String) :
    outputPath source outputDir extension = outputDir.join (extend stem extension) := by
  have hcut := (Path.splitName_eq_self_iff h).mpr hdot
  rw [outputPath_eq hstem h (hcut.symm ▸ h), hcut]

/-- The output of an undotted stem has the name of a source only when it has the extension of sources. -/
theorem extension_eq_of_extend_eq {stem stem' extension : String} (hstem : stem ≠ "") (hstem' : stem' ≠ "")
    (h : Undotted stem) (h' : Undotted stem')
    (heq : extend stem extension = stem' ++ "." ++ sourceExtension) : extension = sourceExtension := by
  obtain ⟨c, cs, hcs⟩ := Path.exists_cons_of_ne_empty hstem
  obtain ⟨c', cs', hcs'⟩ := Path.exists_cons_of_ne_empty hstem'
  rw [Undotted, hcs, List.tail_cons] at h
  rw [Undotted, hcs', List.tail_cons] at h'
  unfold extend at heq
  split at heq
  case isTrue =>
    rw [heq] at hcs
    simp only [String.toList_append, hcs', List.append_assoc, List.cons_append, List.cons.injEq] at hcs
    exact absurd (by simp [← hcs.2]) h
  case isFalse =>
    have hchars := congrArg String.toList heq
    simp only [String.toList_append, hcs, hcs', List.append_assoc, List.cons_append, List.cons.injEq] at hchars
    exact String.toList_inj.mp (Path.append_dot_inj h h' hchars.2).2

/-! ### Outputs of a run -/

/-- A source goes to the file of a name in the output directory. -/
structure GoesTo (outputDir : Path) (extension : String) (source : Path) (name : String) : Prop where
  isName : IsName name
  path : outputPath source outputDir extension = outputDir.join name

/-- An attempt either leaves the disk as it is, or puts the code of its source at the place of its output. -/
theorem Attempt.cases_of_goesTo {a : Attempt} {name : String} (hdir : a.outputDir.text ≠ "")
    (hname : GoesTo a.outputDir a.extension a.source name) :
    (∃ e, a.outcome = .error e ∧ a.after.disk = a.before.disk) ∨
    ∃ text above, a.before.disk.readText a.source = .ok text ∧ a.outcome = .ok a.path ∧
      a.before.disk.locate a.outputDir = .ok above ∧ a.before.disk.get? (above ++ [name]) ≠ some .directory ∧
      a.after.disk = a.before.disk.set (above ++ [name]) (.file (a.codeOf text)) ∧
      a.after.disk.locate a.path = .ok (above ++ [name]) := by
  rcases a.cases with herror | ⟨text, htext, -, hwrite, hpath⟩
  · exact Or.inl herror
  · rw [show a.path = _ from hname.path] at hwrite
    obtain ⟨above, habove, hplace, hafter, hlocate⟩ := Disk.exists_of_write_join hdir hname.isName hwrite
    rw [← hname.path] at hlocate
    exact Or.inr ⟨text, above, htext, hpath, habove, hplace, hafter, hlocate⟩

/-- An attempt fills the output directory by its output, and changes nothing else. -/
theorem Attempt.fills {a : Attempt} {name : String} (hdir : a.outputDir.text ≠ "")
    (hname : GoesTo a.outputDir a.extension a.source name) :
    a.before.disk.Fills a.after.disk a.outputDir [name] := by
  rcases a.cases_of_goesTo hdir hname with ⟨e, -, heq⟩ | ⟨text, above, -, -, habove, hplace, hafter, -⟩
  · rw [heq]
    exact (Disk.Fills.refl _ _).mono (List.nil_subset _)
  · rw [hafter]
    exact Disk.fills_set habove hplace _

section
variable {outputDir : Path} {extension : String} (hdir : outputDir.text ≠ "")
variable {sources : List Path} {name : Path → String} {s : Session} {labels : Vm.Labels}

include hdir in
/-- A run fills the output directory by its outputs, and changes nothing else. -/
theorem fills_attemptsFrom (hnames : ∀ f ∈ sources, GoesTo outputDir extension f (name f)) :
    s.disk.Fills (s.behind (attemptsFrom outputDir extension sources s labels)).disk outputDir (sources.map name) := by
  induction sources generalizing s labels with
  | nil => exact .refl s.disk outputDir
  | cons source sources ih =>
    rw [attemptsFrom, Session.behind_cons]
    have hfirst := Attempt.fills (a := { source, outputDir, extension, before := s, labels }) hdir
      (hnames source List.mem_cons_self)
    exact hfirst.trans (ih fun f hf => hnames f (List.mem_cons_of_mem _ hf))

include hdir in
/-- In front of each attempt of a run, the output directory is filled by outputs of the run. -/
theorem fills_before_of_mem_attemptsFrom (hnames : ∀ f ∈ sources, GoesTo outputDir extension f (name f)) {a : Attempt}
    (ha : a ∈ attemptsFrom outputDir extension sources s labels) :
    s.disk.Fills a.before.disk outputDir (sources.map name) ∧
      a.before.disk.Grows (s.behind (attemptsFrom outputDir extension sources s labels)).disk := by
  obtain ⟨front, rest, rfl, rfl, rfl, hbefore, hbehind⟩ := exists_of_mem_attemptsFrom ha
  rw [List.forall_mem_append, List.forall_mem_cons] at hnames
  obtain ⟨hfront, hsource, hrest⟩ := hnames
  rw [hbehind, List.map_append, hbefore]
  refine ⟨(fills_attemptsFrom hdir hfront).mono (List.subset_append_left _ _), ?_⟩
  rw [← hbefore]
  exact (a.fills hdir hsource).grows.trans (fills_attemptsFrom hdir hrest).grows

include hdir in
/-- Behind a run, the code of each source that compiled is in the file of its output, as long as no two outputs
have one name. -/
theorem read_of_mem_attemptsFrom (hnames : ∀ f ∈ sources, GoesTo outputDir extension f (name f))
    (hnodup : (sources.map name).Nodup) {a : Attempt} {path : Path}
    (ha : a ∈ attemptsFrom outputDir extension sources s labels) (hok : a.outcome = .ok path) :
    path = outputPath a.source outputDir extension ∧ ∃ text, a.before.disk.readText a.source = .ok text ∧
      (s.behind (attemptsFrom outputDir extension sources s labels)).disk.read path = .ok (a.codeOf text) := by
  obtain ⟨front, rest, rfl, rfl, rfl, -, hbehind⟩ := exists_of_mem_attemptsFrom ha
  rw [List.forall_mem_append, List.forall_mem_cons] at hnames
  obtain ⟨-, hsource, hrest⟩ := hnames
  rcases a.cases_of_goesTo hdir hsource with ⟨e, herror, -⟩ | ⟨text, above, htext, hpath, -, -, hafter, hlocate⟩
  · rw [herror] at hok
    cases hok
  rw [hpath] at hok
  cases hok
  have hfills : a.after.disk.Fills (a.after.behind (attemptsFrom _ _ rest a.after a.nextLabels)).disk _ _ :=
    fills_attemptsFrom hdir hrest
  refine ⟨rfl, text, htext, ?_⟩
  rw [hbehind]
  refine Disk.read_of_locate (hfills.grows.locate hlocate) ?_
  rw [hfills.get?_eq, hafter, Disk.get?_set _ (by simp), if_pos rfl]
  -- The outputs of the sources behind it have other names.
  intro above' _ other hother heq
  have hname : name a.source = other := by simpa using (List.append_inj' heq rfl).2
  rw [List.map_append, List.map_cons] at hnodup
  exact (List.nodup_cons.mp (List.nodup_append.mp hnodup).2.1).1 (hname ▸ hother)

end

/-! ### Outputs of a build -/

/-- A build whose outputs do not get in the way of each other or of a source, on the disk behind it. -/
structure Sources.Apart (sources : Sources) (config : Config) (d : Disk) : Prop where
  /-- No stem has an extension of its own. -/
  stems : ∀ f ∈ sources.files, ∀ stem ∈ f.stem?, stem ≠ "." ∧ Undotted stem
  /-- The extension does not lead into another directory. -/
  extension : '/' ∉ config.extension.toList
  /-- Outputs with the extension of sources are not in the directory of a source. -/
  places : config.extension = sourceExtension → ∀ f ∈ sources.files, ∀ place, d.locate f = .ok place →
    d.locate (sources.outputDir config) ≠ .ok place.dropLast

/-- The path of the file that a source of a build compiles to. -/
def Sources.target (sources : Sources) (config : Config) (source : Path) : Path :=
  outputPath source (sources.outputDir config) config.extension

/-- The name of the file that a source compiles to when its stem has no extension. -/
def outputName (extension : String) (source : Path) : String :=
  extend (source.stem?.getD "") extension

theorem Sources.Found.text_outputDir {sources : Sources} {d : Disk} (hfound : sources.Found d) {config : Config} :
    (sources.outputDir config).text ≠ "" := by
  unfold Sources.outputDir Path.join
  split
  case isTrue habsolute =>
    intro hempty
    rw [show config.outputDir = "" from hempty] at habsolute
    cases habsolute
  case isFalse =>
    split
    · simp [hfound.base]
    · simp

/-- No two outputs have one name. -/
theorem Sources.Found.nodup_outputName {sources : Sources} {d : Disk} (hfound : sources.Found d)
    (extension : String) : (sources.files.map (outputName extension)).Nodup := by
  refine List.pairwise_map.mpr ((List.pairwise_map.mp hfound.once).imp_of_mem fun {f g} hf hg hne heq => hne ?_)
  obtain ⟨stem, _, _, hsource⟩ := hfound.source f hf
  obtain ⟨stem', _, _, hsource'⟩ := hfound.source g hg
  rw [outputName, outputName, hsource.stem?, hsource'.stem?, Path.extend_inj] at heq
  rw [hsource.fileName?, hsource'.fileName?, show stem = stem' from heq]

namespace Sources.Apart
variable {sources : Sources} {config : Config} {d final : Disk}

/-- The stem of a source is a file name. -/
theorem isName (h : sources.Apart config final) {f : Path} (hf : f ∈ sources.files) {stem : String} {above : Location}
    {content : ByteArray} (hsource : SourceOn d f stem above content) : IsName stem ∧ Undotted stem := by
  obtain ⟨hdot, hundotted⟩ := h.stems f hf stem hsource.stem?
  refine ⟨⟨Path.isIdle_eq_false_iff.mpr ⟨hsource.nonempty, hdot⟩, ?_, ?_⟩, hundotted⟩
  · rintro rfl
    exact hundotted (by decide)
  · exact fun hslash => hsource.isName.noSlash (by simp [hslash])

theorem goesTo (h : sources.Apart config final) (hfound : sources.Found d) {f : Path} (hf : f ∈ sources.files) :
    GoesTo (sources.outputDir config) config.extension f (outputName config.extension f) := by
  obtain ⟨stem, above, content, hsource⟩ := hfound.source f hf
  obtain ⟨hname, hdot⟩ := h.isName hf hsource
  rw [outputName, hsource.stem?, Option.getD_some]
  exact ⟨Path.isName_extend hname h.extension, outputPath_of_undotted hsource.stem? hname hdot _ _⟩

/-- Different sources go to different paths. -/
theorem eq_of_target_eq (h : sources.Apart config final) (hfound : sources.Found d) {f g : Path}
    (hf : f ∈ sources.files) (hg : g ∈ sources.files) (heq : sources.target config f = sources.target config g) :
    f = g := by
  obtain ⟨hname, hpath⟩ := h.goesTo hfound hf
  obtain ⟨hname', hpath'⟩ := h.goesTo hfound hg
  rw [Sources.target, Sources.target, hpath, hpath', Path.join_inj hname.head?_ne hname'.head?_ne] at heq
  exact List.inj_on_of_nodup_map (hfound.nodup_outputName config.extension) hf hg heq

/-- No output is at the place of a source. -/
theorem ne_place (h : sources.Apart config final) (hfound : sources.Found d) {f g : Path}
    (hf : f ∈ sources.files) (hg : g ∈ sources.files) {place above : Location} (hplace : final.locate f = .ok place)
    (habove : final.locate (sources.outputDir config) = .ok above) (hgrows : d.Grows final) :
    place ≠ above ++ [outputName config.extension g] := by
  obtain ⟨stem, above', _, hsource⟩ := hfound.source f hf
  obtain ⟨stem', _, _, hsource'⟩ := hfound.source g hg
  rw [outputName, hsource'.stem?, Option.getD_some]
  rintro rfl
  have hsame := hplace.symm.trans (hgrows.locate hsource.locate)
  obtain ⟨rfl, hname⟩ := List.append_inj' (Except.ok.inj hsame) rfl
  have hext := extension_eq_of_extend_eq hsource'.nonempty hsource.nonempty (h.isName hg hsource').2
    (h.isName hf hsource).2 (List.cons.inj hname).1
  exact h.places hext f hf _ hplace (by rw [List.dropLast_concat, habove])

/-- The file of an output is not that of a source. -/
theorem target_ne (h : sources.Apart config final) (hfound : sources.Found d) (hgrows : d.Grows final) {f g : Path}
    (hf : f ∈ sources.files) (hg : g ∈ sources.files) : sources.target config f ≠ g := by
  intro heq
  obtain ⟨hname, hpath⟩ := h.goesTo hfound hf
  obtain ⟨stem, above, content, hsource⟩ := hfound.source g hg
  have hplace := hgrows.locate hsource.locate
  rw [← heq, Sources.target, hpath] at hplace
  obtain ⟨above', habove, hlast⟩ := Disk.exists_of_locate_join hfound.text_outputDir hname hplace
  exact h.ne_place hfound hg hf (hgrows.locate hsource.locate) habove hgrows hlast

/-- A source is read as it was while the output directory is filled. -/
theorem read_source (h : sources.Apart config final) (hfound : sources.Found d) {d' e : Disk} (hkeeps : d.Keeps d')
    (hfills : d'.Fills e (sources.outputDir config) (sources.files.map (outputName config.extension)))
    (hgrows : e.Grows final) {f : Path} (hf : f ∈ sources.files) :
    ∃ content, d.read f = .ok content ∧ e.read f = .ok content := by
  obtain ⟨stem, above, content, hsource⟩ := hfound.source f hf
  have hlocate := (hkeeps.grows.trans hfills.grows).locate hsource.locate
  refine ⟨content, Disk.read_of_locate hsource.locate hsource.get?, Disk.read_of_locate hlocate ?_⟩
  rw [hfills.get?_eq, hkeeps.get? _ _ hsource.get?]
  intro above' habove name hname
  obtain ⟨g, hg, rfl⟩ := List.mem_map.mp hname
  exact h.ne_place hfound hf hg (hgrows.locate hlocate) (hgrows.locate habove)
    ((hkeeps.grows.trans hfills.grows).trans hgrows)

end Sources.Apart

section
variable {s : Session} {reader : ConfigReader} {input : Path} {sources : Sources} {config : Config}
  (hsources : ((discover Session.host input).run s).1 = .ok sources)
  (hconfig : ((loadConfig Session.host reader sources.baseDir).run s).1 = .ok config)

include hsources hconfig

/-- The attempts of a build run from a disk on which everything is as it was. -/
theorem exists_attemptsFrom_of_build :
    ∃ s' : Session, s.disk.Keeps s'.disk ∧
      ((build Session.host reader input).run s).2.disk = (s'.behind (s.attempts reader input)).disk ∧
      (s.attempts reader input = [] ∨ s.attempts reader input =
        attemptsFrom (sources.outputDir config) config.extension sources.files s' { next := 0 }) := by
  let loaded := ((loadConfig Session.host reader sources.baseDir).run s).2
  have hattempts := attempts_eq_attemptsAt hsources hconfig
  refine ⟨loaded.withDirectory (sources.outputDir config), ?_, ?_, ?_⟩
  · rw [← disk_run_loadConfig reader sources.baseDir s]
    exact loaded.disk.keeps_makeDirectories _
  · rw [run_build hsources hconfig, (run_buildSources sources config _).1, hattempts]
  · rw [hattempts, Session.attemptsAt]
    cases (Disk.makeDirectories _ (sources.outputDir config)).1 with
    | error e => exact Or.inl rfl
    | ok => exact Or.inr rfl

variable (hfound : sources.Found s.disk)
  (hapart : sources.Apart config ((build Session.host reader input).run s).2.disk)

include hfound hapart

/-- A build fills the output directory by its outputs, and changes nothing that was there before. -/
theorem exists_fills_of_build : ∃ d, s.disk.Keeps d ∧
    d.Fills ((build Session.host reader input).run s).2.disk (sources.outputDir config)
      (sources.files.map (outputName config.extension)) := by
  obtain ⟨s', hkeeps, hfinal, hattempts⟩ := exists_attemptsFrom_of_build hsources hconfig
  refine ⟨s'.disk, hkeeps, ?_⟩
  rw [hfinal]
  rcases hattempts with heq | heq
  · rw [heq]
    exact (Disk.Fills.refl s'.disk _).mono (List.nil_subset _)
  · rw [heq]
    exact fills_attemptsFrom hfound.text_outputDir fun f hf => hapart.goesTo hfound hf

/-- Behind a build, the code of each source that compiled is in the file of its output. -/
theorem read_output_of_build {a : Attempt} (ha : a ∈ s.attempts reader input) {path : Path}
    (hok : a.outcome = .ok path) :
    path = sources.target config a.source ∧ ∃ text, s.disk.readText a.source = .ok text ∧
      ((build Session.host reader input).run s).2.disk.read path = .ok (a.codeOf text) := by
  obtain ⟨s', hkeeps, hfinal, heq | heq⟩ := exists_attemptsFrom_of_build hsources hconfig
  · rw [heq] at ha
    cases ha
  rw [heq] at ha
  have hnames : ∀ f ∈ sources.files, GoesTo _ _ f (outputName config.extension f) :=
    fun f hf => hapart.goesTo hfound hf
  obtain ⟨hbefore, hgrows⟩ := fills_before_of_mem_attemptsFrom hfound.text_outputDir hnames ha
  obtain ⟨hpath, text, htext, hcode⟩ :=
    read_of_mem_attemptsFrom hfound.text_outputDir hnames (hfound.nodup_outputName _) ha hok
  rw [← heq, ← hfinal] at hgrows hcode
  -- The attempt read its source as it stood in front of the build.
  obtain ⟨content, hread, hread'⟩ := hapart.read_source hfound hkeeps hbefore hgrows (mem_of_mem_attemptsFrom ha)
  refine ⟨hpath, text, ?_, hcode⟩
  rw [← htext, Disk.readText, Disk.readText, hread, hread']

end

/-- Where a build writes. Each source has a stem, which is its file name without the extension of sources. Its output
is in the output directory, under the stem up to its last dot with the extension of the configuration, unless dots
alone are left; so it has the whole stem exactly when the stem has no dot behind its first character.

When that holds of all stems, and outputs with the extension of sources go to another directory, no two sources have
one output and no output is a source. Then the code of each source that compiled is in the file of its output behind
the build, and each source reads as it did in front of it. A build that reports no failure compiled all sources. -/
theorem outputs_of_build {s : Session} {reader : ConfigReader} {input : Path} {sources : Sources} {config : Config}
    (hproper : s.disk.Proper) (hsources : ((discover Session.host input).run s).1 = .ok sources)
    (hconfig : ((loadConfig Session.host reader sources.baseDir).run s).1 = .ok config) :
    let built := (build Session.host reader input).run s
    (∀ f ∈ sources.files, ∃ stem, f.fileName? = some (stem ++ "." ++ sourceExtension) ∧
      (IsName stem → IsName (splitName stem).1 →
        sources.target config f = (sources.outputDir config).join (extend (splitName stem).1 config.extension) ∧
        (sources.target config f = (sources.outputDir config).join (extend stem config.extension) ↔ Undotted stem))) ∧
    (sources.Apart config built.2.disk →
      (∀ f ∈ sources.files, ∃ stem, f.fileName? = some (stem ++ "." ++ sourceExtension) ∧
        sources.target config f = (sources.outputDir config).join (extend stem config.extension)) ∧
      (∀ f ∈ sources.files, ∀ g ∈ sources.files, f ≠ g → sources.target config f ≠ sources.target config g) ∧
      (∀ f ∈ sources.files, ∀ g ∈ sources.files, sources.target config f ≠ g) ∧
      (∀ a ∈ s.attempts reader input, ∀ path, a.outcome = .ok path →
        path = sources.target config a.source ∧ ∃ text, s.disk.readText a.source = .ok text ∧
          built.2.disk.read path = .ok (a.codeOf text)) ∧
      ∀ f ∈ sources.files, ∃ content, s.disk.read f = .ok content ∧ built.2.disk.read f = .ok content) ∧
    (built.1 = .ok () → (s.attempts reader input).map (·.source) = sources.files ∧
      ∀ a ∈ s.attempts reader input, a.outcome.isOk = true) := by
  intro built
  have hfound := found_of_discover hproper hsources
  refine ⟨fun f hf => ?_, fun hapart => ?_, attempts_of_build_ok hsources hconfig⟩
  · obtain ⟨stem, _, _, hsource⟩ := hfound.source f hf
    refine ⟨stem, hsource.fileName?, fun hname hcut => ?_⟩
    have htarget : sources.target config f = _ :=
      outputPath_eq hsource.stem? hname hcut (sources.outputDir config) config.extension
    refine ⟨htarget, ?_⟩
    rw [htarget, Path.join_inj (Path.head?_extend hcut _) (Path.head?_extend hname _), Path.extend_inj]
    exact Path.splitName_eq_self_iff hname
  · obtain ⟨d, hkeeps, hfills⟩ := exists_fills_of_build hsources hconfig hfound hapart
    refine ⟨fun f hf => ?_, ?_, ?_, ?_, ?_⟩
    · obtain ⟨stem, _, _, hsource⟩ := hfound.source f hf
      obtain ⟨hname, hdot⟩ := hapart.isName hf hsource
      exact ⟨stem, hsource.fileName?, outputPath_of_undotted hsource.stem? hname hdot _ _⟩
    · exact fun f hf g hg hne heq => hne (hapart.eq_of_target_eq hfound hf hg heq)
    · exact fun f hf g hg => hapart.target_ne hfound (hkeeps.grows.trans hfills.grows) hf hg
    · exact fun a ha path hok => read_output_of_build hsources hconfig hfound hapart ha hok
    · exact fun f hf => hapart.read_source hfound hkeeps hfills (.refl _) hf

def smallClass (name : String) : ByteArray :=
  s!"class {name} \x7b function void f() \x7b return; \x7d \x7d".toUTF8

/-- A directory of two sources in the working directory. Outputs have the extension of sources and go to a directory
that is written from the root in a roundabout way. -/
def roundaboutSession : Session :=
  { disk := {
      entries := [(["home"], .directory), (["home", "p"], .directory),
        (["home", "p", ".B.jack"], .file (smallClass "B")), (["home", "p", "A.jack"], .file (smallClass "A")),
        (["home", "p", "jackc.yaml"], .file "output_dir: /home/x/../out\nextension: jack\n".toUTF8)]
      workingDir := ["home"] } }

def roundaboutSources : Sources :=
  { baseDir := ⟨"p"⟩, files := [⟨"p/.B.jack"⟩, ⟨"p/A.jack"⟩] }

def roundaboutConfig : Config :=
  { outputDir := "/home/x/../out", extension := "jack" }

/-- The result of building it, and the session behind that. -/
def roundaboutBuilt : Except BuildError Unit × Session :=
  (buildSources Session.host roundaboutSources roundaboutConfig).run
    ((loadConfig Session.host Config.ofText ⟨"p"⟩).run roundaboutSession).2

/-- Both outputs have the name of a source, and yet no source is lost. -/
theorem outputs_of_build_roundabout :
    let built := (build Session.host Config.ofText ⟨"p"⟩).run roundaboutSession
    built.1 = .ok () ∧ roundaboutSources.Apart roundaboutConfig built.2.disk ∧
    roundaboutSources.files.map (roundaboutSources.target roundaboutConfig) =
      [⟨"/home/x/../out/.B.jack"⟩, ⟨"/home/x/../out/A.jack"⟩] ∧
    (roundaboutSession.attempts Config.ofText ⟨"p"⟩).map (·.source) = roundaboutSources.files ∧
    (∀ a ∈ roundaboutSession.attempts Config.ofText ⟨"p"⟩, ∃ text, roundaboutSession.disk.readText a.source = .ok text ∧
      built.2.disk.read (roundaboutSources.target roundaboutConfig a.source) = .ok (a.codeOf text)) ∧
    ∀ f ∈ roundaboutSources.files, ∃ content,
      roundaboutSession.disk.read f = .ok content ∧ built.2.disk.read f = .ok content := by
  intro built
  have hstart : roundaboutSession.disk.Proper ∧ roundaboutSession.disk.isDirectory ⟨"p"⟩ = true ∧
      roundaboutSession.disk.names ⟨"p"⟩ = .ok [".B.jack", "A.jack", "jackc.yaml"] ∧
      ((loadConfig Session.host Config.ofText ⟨"p"⟩).run roundaboutSession).1 = .ok roundaboutConfig := by
    decide +kernel
  obtain ⟨hproper, hdir, hnames, hconfig⟩ := hstart
  have hsources : ((discover Session.host ⟨"p"⟩).run roundaboutSession).1 = .ok roundaboutSources :=
    (discover_of_sorted hdir hnames (by decide +kernel)).trans (by decide +kernel)
  have hrun : built = roundaboutBuilt := run_build hsources hconfig
  have hbuilt : roundaboutBuilt.1 = .ok () ∧
      roundaboutBuilt.2.disk.locate (roundaboutSources.outputDir roundaboutConfig) = .ok ["home", "out"] ∧
      ∀ f ∈ roundaboutSources.files, (roundaboutBuilt.2.disk.locate f).map (·.dropLast) = .ok ["home", "p"] := by
    decide +kernel
  rw [← hrun] at hbuilt
  obtain ⟨hok, hout, hplaces⟩ := hbuilt
  have hapart : roundaboutSources.Apart roundaboutConfig built.2.disk := by
    refine ⟨by decide +kernel, by decide, fun _ f hf place hplace => ?_⟩
    have habove := hplaces f hf
    rw [hplace] at habove
    rw [hout, show place.dropLast = ["home", "p"] from Except.ok.inj habove]
    decide
  obtain ⟨-, hapart', hall⟩ := outputs_of_build hproper hsources hconfig
  obtain ⟨-, -, -, hwritten, hkept⟩ := hapart' hapart
  obtain ⟨hattempts, hsucceeded⟩ := hall hok
  refine ⟨hok, hapart, by decide +kernel, hattempts, fun a ha => ?_, hkept⟩
  cases houtcome : a.outcome with
  | error e =>
    have hisOk := hsucceeded a ha
    rw [houtcome] at hisOk
    cases hisOk
  | ok path =>
    obtain ⟨rfl, htext⟩ := hwritten a ha path houtcome
    exact htext

/-- A directory of two sources, one of them with a dotted stem. -/
def dottedSession : Session :=
  { disk := { entries := [(["p"], .directory), (["p", "A.b.jack"], .file (smallClass "B")),
      (["p", "A.jack"], .file (smallClass "A"))] } }

/-- Not every output is kept: both sources go to the file of the stem `A`, and what was written first is lost. -/
theorem not_forall_outputs_kept :
    ¬ ∀ (s : Session) (reader : ConfigReader) (input : Path) (sources : Sources) (config : Config), s.disk.Proper →
      ((discover Session.host input).run s).1 = .ok sources →
      ((loadConfig Session.host reader sources.baseDir).run s).1 = .ok config →
      (∀ f ∈ sources.files, ∀ stem ∈ f.stem?,
        sources.target config f = (sources.outputDir config).join (extend stem config.extension)) ∧
      (∀ f ∈ sources.files, ∀ g ∈ sources.files, f ≠ g → sources.target config f ≠ sources.target config g) ∧
      (∀ f ∈ sources.files, ∀ g ∈ sources.files, sources.target config f ≠ g) ∧
      (∀ a ∈ s.attempts reader input, ∀ path, a.outcome = .ok path → ∃ text, s.disk.readText a.source = .ok text ∧
        ((build Session.host reader input).run s).2.disk.read path = .ok (a.codeOf text)) ∧
      ∀ f ∈ sources.files, ((build Session.host reader input).run s).2.disk.read f = s.disk.read f := by
  intro h
  have hrun : dottedSession.disk.Proper ∧ dottedSession.disk.isDirectory ⟨"p"⟩ = true ∧
      dottedSession.disk.names ⟨"p"⟩ = .ok ["A.b.jack", "A.jack"] ∧
      ((loadConfig Session.host Config.ofText ⟨"p"⟩).run dottedSession).1 = .ok {} := by
    decide +kernel
  obtain ⟨hproper, hdir, hnames, hconfig⟩ := hrun
  obtain ⟨-, hdistinct, -⟩ :=
    h dottedSession Config.ofText ⟨"p"⟩ _ {} hproper (discover_of_sorted hdir hnames (by decide +kernel)) hconfig
  refine hdistinct ⟨"p/A.b.jack"⟩ ?_ ⟨"p/A.jack"⟩ ?_ (by decide) ?_
  all_goals decide +kernel

end JackToVm
