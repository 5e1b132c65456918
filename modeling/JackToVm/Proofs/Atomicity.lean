import JackToVm.Proofs.Attempts
import Mathlib.Algebra.GroupWithZero.Nat

/-!
What a build leaves on the disk, whichever of its classes fail. An attempt that fails changes nothing, and one that
succeeds changes the place of its output (`Attempt.touches`). So what is new or different behind a build is the output
directory, with those above it, and the outputs of the attempts that succeeded (`build_of_attempts`).
-/

namespace JackToVm
open JackToVm.Path (IsName isIdle)

/-! ### Places that are changed -/

namespace Disk

/-- A disk that grew, and that changed at places that some paths lead to and nowhere else. -/
structure Touches (d e : Disk) (paths : List Path) : Prop where
  grows : d.Grows e
  frame : ∀ place, e.get? place ≠ d.get? place → ∃ p ∈ paths, e.locate p = .ok place

/-- A disk on which everything is as it was, with new directories at places that some paths lead to. -/
structure Makes (d e : Disk) (paths : List Path) : Prop where
  keeps : d.Keeps e
  frame : ∀ place, e.get? place ≠ d.get? place → e.get? place = some .directory ∧ ∃ p ∈ paths, e.locate p = .ok place

variable {d e f : Disk} {ps qs : List Path}

theorem Touches.refl (d : Disk) : d.Touches d [] :=
  ⟨.refl d, fun _ h => absurd rfl h⟩

theorem Touches.trans (h : d.Touches e ps) (h' : e.Touches f qs) : d.Touches f (ps ++ qs) := by
  refine ⟨h.grows.trans h'.grows, fun place hplace => ?_⟩
  by_cases hlate : f.get? place = e.get? place
  · obtain ⟨p, hp, hlocate⟩ := h.frame place (hlate ▸ hplace)
    exact ⟨p, List.mem_append_left _ hp, h'.grows.locate hlocate⟩
  · obtain ⟨p, hp, hlocate⟩ := h'.frame place hlate
    exact ⟨p, List.mem_append_right _ hp, hlocate⟩

theorem Makes.refl (d : Disk) (paths : List Path) : d.Makes d paths :=
  ⟨.refl d, fun _ h => absurd rfl h⟩

theorem Makes.trans (h : d.Makes e ps) (h' : e.Makes f qs) : d.Makes f (qs ++ ps) := by
  refine ⟨h.keeps.trans h'.keeps, fun place hplace => ?_⟩
  by_cases hlate : f.get? place = e.get? place
  · obtain ⟨hdir, p, hp, hlocate⟩ := h.frame place (hlate ▸ hplace)
    exact ⟨hlate ▸ hdir, p, List.mem_append_right _ hp, h'.keeps.grows.locate hlocate⟩
  · obtain ⟨hdir, p, hp, hlocate⟩ := h'.frame place hlate
    exact ⟨hdir, p, List.mem_append_left _ hp, hlocate⟩

theorem Makes.mono (h : d.Makes e ps) (hsub : ps ⊆ qs) : d.Makes e qs := by
  refine ⟨h.keeps, fun place hplace => ?_⟩
  obtain ⟨hdir, p, hp, hlocate⟩ := h.frame place hplace
  exact ⟨hdir, p, hsub hp, hlocate⟩

/-- Where something new was nothing was. -/
theorem Makes.get?_eq_none (h : d.Makes e ps) {place : Location} (hplace : e.get? place ≠ d.get? place) :
    d.get? place = none := by
  by_contra hthere
  obtain ⟨node, hnode⟩ := Option.ne_none_iff_exists'.mp hthere
  exact hplace (by rw [h.keeps.get? place node hnode, hnode])

/-! ### Paths to what is new -/

/-- The end of a path leads to its place once there is something. -/
theorem follow_of_target? {start : Location} {segments : List String} {place : Location}
    (h : d.target? start segments = .ok (some place)) (hgrows : d.Grows e) (hplace : (e.get? place).isSome = true) :
    e.follow start segments = .ok place := by
  obtain ⟨above, name, hfollow, hdir, hlast, hsize, rfl⟩ := exists_of_target? h
  have hname : isIdle name = false ∧ name ≠ ".." := by
    obtain ⟨above', hfollow', h⟩ := exists_of_bind_eq_ok h
    obtain rfl := Except.ok.inj (hfollow.symm.trans hfollow')
    by_contra hidle
    have hidle : (isIdle name || name = "..") = true := by
      cases hi : isIdle name <;> simp_all
    simp [isDirectoryAt, hdir, hlast, hidle, pure, Except.pure] at h
  obtain ⟨front, rfl⟩ := List.getLast?_eq_some_iff.mp hlast
  rw [List.dropLast_concat] at hfollow
  rw [follow_append, hgrows.follow hfollow]
  have hdir' := hgrows.directory above hdir
  simp [Except.bind, follow, isDirectoryAt, hdir', hname.1, hname.2, Nat.not_lt.mpr hsize, hplace]

theorem follow_idles {place : Location} {segments : List String} (hplace : d.get? place = some .directory)
    (h : ∀ segment ∈ segments, isIdle segment = true) : d.follow place segments = .ok place := by
  induction segments with
  | nil => rfl
  | cons segment segments ih =>
    rw [List.forall_mem_cons] at h
    have hstep := (follow_idle h.1).mpr ⟨hplace, rfl⟩
    rw [← List.singleton_append, follow_append, hstep]
    exact ih h.2

theorem touches_of_write {p : Path} {content : ByteArray} (h : d.write p content = .ok e) : d.Touches e [p] := by
  obtain ⟨place, hsegments, htarget, hplace, rfl⟩ := exists_of_write h
  obtain ⟨above, name, -, -, -, -, rfl⟩ := exists_of_target? htarget
  have hne : above ++ [name] ≠ [] := by simp
  have hgrows := grows_set hne hplace (.file content)
  refine ⟨hgrows, fun other hother => ⟨p, List.mem_singleton_self p, ?_⟩⟩
  obtain rfl := eq_of_get?_set_ne hne hother
  refine locate_eq_ok_iff.mpr ⟨hsegments, follow_of_target? htarget hgrows ?_⟩
  rw [get?_set _ hne, if_pos rfl]
  rfl

theorem makes_of_makeDirectory {p : Path} (h : d.makeDirectory p = .ok e) : d.Makes e [p] := by
  have hkeeps := keeps_of_makeDirectory h
  obtain ⟨segments, hsegments, h⟩ := exists_of_bind_eq_ok h
  obtain ⟨-, -, -, rfl⟩ := segmentsOf_eq_ok_iff.mp hsegments
  obtain ⟨place?, htarget, h⟩ := exists_of_bind_eq_ok h
  cases place? with
  | none => cases h
  | some place =>
    obtain ⟨above, name, -, -, -, -, rfl⟩ := exists_of_target? htarget
    have hne : above ++ [name] ≠ [] := by simp
    dsimp only at h
    split at h
    · cases h
    · cases h
      have hnew : (d.set (above ++ [name]) .directory).get? (above ++ [name]) = some .directory := by
        rw [get?_set _ hne, if_pos rfl]
      refine ⟨hkeeps, fun other hother => ?_⟩
      obtain rfl := eq_of_get?_set_ne hne hother
      refine ⟨hnew, p, List.mem_singleton_self p, locate_eq_ok_iff.mpr ⟨hsegments, ?_⟩⟩
      -- Slashes at the end of the path lead from the new directory to itself.
      have hsplit : p.segments = (p.segments.reverse.dropWhile (· = "")).reverse ++
          (p.segments.reverse.takeWhile (· = "")).reverse := by
        rw [← List.reverse_append, List.takeWhile_append_dropWhile, List.reverse_reverse]
      rw [hkeeps.grows.origin, hsplit, follow_append, follow_of_target? htarget hkeeps.grows (by rw [hnew]; rfl)]
      refine follow_idles hnew fun segment hsegment => ?_
      have hempty := List.all_eq_true.mp List.all_takeWhile segment (List.mem_reverse.mp hsegment)
      rw [isIdle, hempty, Bool.true_or]

theorem makes_attempt_ensureDirectory (d : Disk) (p : Path) : d.Makes (d.attempt (·.ensureDirectory p)).2 [p] := by
  unfold attempt
  beta_reduce
  cases hensure : d.ensureDirectory p with
  | error e => exact .refl d [p]
  | ok e =>
    unfold ensureDirectory at hensure
    split at hensure
    case h_1 hmake =>
      cases hensure
      exact makes_of_makeDirectory hmake
    case h_2 =>
      split at hensure
      · cases hensure
        exact .refl d [p]
      · cases hensure

theorem makes_makeBelow (d : Disk) (p : Path) (above : List Path) : d.Makes (d.makeBelow p above).2 (p :: above) := by
  fun_induction d.makeBelow p above with
  | case1 => exact .refl d _
  | case2 p _ parent above _ e hbelow ih =>
    rw [hbelow] at ih
    exact ih.trans (e.makes_attempt_ensureDirectory p)
  | case3 p _ parent above _ _ ih => exact ih.mono (List.subset_cons_self ..)
  | case4 above p => exact (d.makes_attempt_ensureDirectory p).mono (List.cons_subset_cons p (List.nil_subset above))

/-- Making a directory makes it and some of those above it. -/
theorem makes_makeDirectories (d : Disk) (p : Path) : d.Makes (d.makeDirectories p).2 (p :: p.ancestors) :=
  d.makes_makeBelow p p.ancestors

end Disk

/-! ### One attempt -/

namespace Attempt
variable (a : Attempt)

/-- How many label numbers an attempt draws. One that fails draws numbers up to its error. -/
def draws : Nat :=
  match a.before.disk.readText a.source with
  | .error _ => 0
  | .ok text => (compile text a.labels.next).draws

theorem next_nextLabels : a.nextLabels.next = a.labels.next + a.draws := by
  have hnext : a.nextLabels =
      ((compileFile Session.host a.source a.outputDir a.extension a.labels).run a.before).1.1 := rfl
  rw [run_compileFile] at hnext
  rw [hnext, draws]
  cases a.before.disk.readText a.source with
  | error e => rfl
  | ok text =>
    dsimp only
    split
    · rfl
    · split <;> rfl

/-- An attempt that fails leaves the disk as it is. -/
theorem disk_after_of_error {e : BuildError} (h : a.outcome = .error e) : a.after.disk = a.before.disk := by
  cases a.ends with
  | unreadable _ _ disk => exact disk
  | rejected _ _ _ disk => exact disk
  | unwritable _ _ _ _ disk => exact disk
  | written _ _ _ outcome =>
    rw [outcome] at h
    cases h

/-- The paths of the files that attempts wrote. -/
def outputs (as : List Attempt) : List Path :=
  (as.filter (·.outcome.isOk)).map path

theorem outputs_cons (as : List Attempt) : outputs (a :: as) = outputs [a] ++ outputs as := by
  rw [outputs, outputs, outputs, ← List.map_append, ← List.filter_append, List.singleton_append]

/-- An attempt changes the place of its output when it succeeds, and else nothing. -/
theorem touches : a.before.disk.Touches a.after.disk (outputs [a]) := by
  have hfailed {e : BuildError} (h : a.outcome = .error e) : a.before.disk.Touches a.after.disk (outputs [a]) := by
    have hnone : outputs [a] = [] := by simp [outputs, h, Except.isOk, Except.toBool]
    rw [hnone, a.disk_after_of_error h]
    exact .refl _
  cases a.ends with
  | unreadable _ outcome => exact hfailed outcome
  | rejected _ _ outcome => exact hfailed outcome
  | unwritable _ _ _ outcome => exact hfailed outcome
  | written _ _ write outcome =>
    have hone : outputs [a] = [a.path] := by simp [outputs, outcome, Except.isOk, Except.toBool]
    rw [hone]
    exact Disk.touches_of_write write

end Attempt

/-! ### One attempt after the other -/

section
variable {outputDir : Path} {extension : String}

theorem touches_attemptsFrom (sources : List Path) (s : Session) (labels : Vm.Labels) :
    s.disk.Touches (s.behind (attemptsFrom outputDir extension sources s labels)).disk
      (Attempt.outputs (attemptsFrom outputDir extension sources s labels)) := by
  induction sources generalizing s labels with
  | nil => exact .refl s.disk
  | cons source sources ih =>
    have hfirst := Attempt.touches { source, outputDir, extension, before := s, labels }
    rw [attemptsFrom, Session.behind_cons, Attempt.outputs_cons]
    exact hfirst.trans (ih _ _)

/-- An attempt starts where the earlier ones end, and its label numbers where theirs do. -/
theorem getElem?_attemptsFrom {sources : List Path} {s : Session} {labels : Vm.Labels} {i : Nat} {a : Attempt}
    (h : (attemptsFrom outputDir extension sources s labels)[i]? = some a) :
    a.before = s.behind ((attemptsFrom outputDir extension sources s labels).take i) ∧
      a.labels.next =
        labels.next + (((attemptsFrom outputDir extension sources s labels).take i).map Attempt.draws).sum := by
  induction sources generalizing s labels i with
  | nil => cases h
  | cons source sources ih =>
    rw [attemptsFrom] at h ⊢
    cases i with
    | zero =>
      obtain rfl := Option.some.inj h
      exact ⟨rfl, rfl⟩
    | succ i =>
      rw [List.getElem?_cons_succ] at h
      obtain ⟨hbefore, hlabels⟩ := ih h
      have hnext := Attempt.next_nextLabels { source, outputDir, extension, before := s, labels }
      rw [List.take_succ_cons, Session.behind_cons, List.map_cons, List.sum_cons]
      refine ⟨hbefore, ?_⟩
      rw [hlabels, hnext, Nat.add_assoc]

end

/-! ### The sources of a build -/

theorem mem_names_of_isFile {d : Disk} {dir : Path} {name : String} {names : List String}
    (hnames : d.names dir = .ok names) (hname : IsName name) (hdir : dir.text ≠ "")
    (hfile : d.isFile (dir.join name) = true) : name ∈ names := by
  obtain ⟨place, hplace, hnames⟩ := exists_of_bind_eq_ok hnames
  obtain ⟨there, content, hthere, hcontent⟩ := Disk.exists_of_isFile hfile
  obtain ⟨above, habove, rfl⟩ := Disk.exists_of_locate_join hdir hname hthere
  obtain rfl := Except.ok.inj (habove.symm.trans hplace)
  rw [Disk.get?, if_neg (by simp)] at hcontent
  obtain ⟨front, back, hentries, -⟩ := List.lookup_eq_some_iff.mp hcontent
  split at hnames
  case isFalse => cases hnames
  case isTrue =>
    cases hnames
    refine List.mem_filterMap.mpr ⟨(above ++ [name], .file content), by simp [hentries], ?_⟩
    simp

/-- The sources in a directory are all files in it with the extension of sources, in ascending order. In which order the
disk lists them does not matter. -/
theorem exists_names_of_discover {s : Session} {input : Path} {sources : Sources} (hproper : s.disk.Proper)
    (h : ((discover Session.host input).run s).1 = .ok sources) (hdir : s.disk.isDirectory input = true) :
    ∃ names : List String, sources.files = names.map input.join ∧ names.Pairwise (· < ·) ∧
      ∀ name, name ∈ names ↔
        IsName name ∧ (input.join name).isSource = true ∧ s.disk.isFile (input.join name) = true := by
  rw [run_discover] at h
  simp only [hdir, if_true] at h
  cases hnames : s.disk.names input with
  | error e => simp [hnames] at h
  | ok names =>
    obtain ⟨hnodup, hname⟩ := hproper.names_eq_ok hnames
    simp only [hnames, Except.ok.injEq] at h
    obtain rfl := h
    have hperm := names.mergeSort_perm fun a b => decide (a ≤ b)
    have hsorted : (names.mergeSort fun a b => decide (a ≤ b)).Pairwise (· < ·) := by
      have hle := @List.pairwise_mergeSort String (fun a b => decide (a ≤ b))
        (fun a b c hab hbc => by simpa using String.le_trans (of_decide_eq_true hab) (of_decide_eq_true hbc))
        (fun a b => by simpa using String.le_total a b) names
      refine (hle.and (hperm.nodup_iff.mpr hnodup)).imp fun {a b} hab => ?_
      exact Std.lt_of_le_of_ne (of_decide_eq_true hab.1) hab.2
    refine ⟨(names.mergeSort fun a b => decide (a ≤ b)).filter
      fun name => (input.join name).isSource && s.disk.isFile (input.join name), ?_, hsorted.filter _, fun name => ?_⟩
    · rw [entryPaths, List.filter_map]
      rfl
    · rw [List.mem_filter, hperm.mem_iff, Bool.and_eq_true]
      constructor
      · rintro ⟨hmem, hsource, hfile⟩
        exact ⟨hname name hmem, hsource, hfile⟩
      · rintro ⟨hisName, hsource, hfile⟩
        have hmem := mem_names_of_isFile hnames hisName (Disk.text_ne_empty_of_isDirectory hdir) hfile
        exact ⟨hmem, hsource, hfile⟩

/-! ### Builds -/

/-- The sources that a path stands for, said without the order in which the disk lists a directory: all files in the
directory with the extension of sources, in ascending order, or the file of the path alone. -/
structure Sources.StandFor (sources : Sources) (d : Disk) (input : Path) : Prop where
  directory : d.isDirectory input = true → ∃ names : List String, sources.files = names.map input.join ∧
    names.Pairwise (· < ·) ∧
    ∀ name, name ∈ names ↔ IsName name ∧ (input.join name).isSource = true ∧ d.isFile (input.join name) = true
  file : d.isDirectory input = false → sources.files = [input] ∧ input.isSource = true ∧ d.isFile input = true

theorem standFor_of_discover {s : Session} {input : Path} {sources : Sources} (hproper : s.disk.Proper)
    (h : ((discover Session.host input).run s).1 = .ok sources) : sources.StandFor s.disk input := by
  refine ⟨exists_names_of_discover hproper h, fun hfile => ?_⟩
  rw [run_discover] at h
  simp only [hfile, Bool.false_eq_true, if_false] at h
  split at h
  case isTrue hsource =>
    cases h
    exact ⟨rfl, Bool.and_eq_true_iff.mp hsource⟩
  case isFalse => cases h

/-- Attempts from a session on, with label numbers from 0 on. Each starts on the disk that the earlier ones left, with
the first label number that none of them drew. It ends in one of the ways of attempts, and when it fails the disk is as
it was. -/
structure Attempt.Chained (start : Session) (as : List Attempt) : Prop where
  before : ∀ i a, as[i]? = some a → a.before.disk = (start.behind (as.take i)).disk
  labels : ∀ i a, as[i]? = some a → a.labels.next = ((as.take i).map Attempt.draws).sum
  ends : ∀ a ∈ as, a.Ends
  failed : ∀ a ∈ as, ∀ e, a.outcome = .error e → a.after.disk = a.before.disk

theorem Session.disk_behind {s s' : Session} (h : s.disk = s'.disk) (as : List Attempt) :
    (s.behind as).disk = (s'.behind as).disk := by
  rw [behind, behind]
  cases as.getLast? with
  | none => exact h
  | some a => rfl

section
variable {s : Session} {reader : ConfigReader} {input : Path} {sources : Sources} {config : Config}
  (hsources : ((discover Session.host input).run s).1 = .ok sources)
  (hconfig : ((loadConfig Session.host reader sources.baseDir).run s).1 = .ok config)
  (hmade : (s.disk.makeDirectories (sources.outputDir config)).1 = .ok ())

include hsources hconfig hmade

/-- The attempts of a build whose output directory can be made. -/
theorem exists_attempts_of_build : ∃ start : Session,
    start.disk = (s.withDirectory (sources.outputDir config)).disk ∧
    s.attempts reader input =
      attemptsFrom (sources.outputDir config) config.extension sources.files start { next := 0 } ∧
    ((build Session.host reader input).run s).2.disk = (start.behind (s.attempts reader input)).disk ∧
    ((build Session.host reader input).run s).1 =
      if (s.attempts reader input).countP (!·.outcome.isOk) = 0 then .ok ()
      else .error (.failed ((s.attempts reader input).countP (!·.outcome.isOk)) sources.files.length) := by
  have hdisk := disk_run_loadConfig reader sources.baseDir s
  have hbuilt := run_buildSources sources config ((loadConfig Session.host reader sources.baseDir).run s).2
  rw [run_build hsources hconfig, attempts_eq_attemptsAt hsources hconfig]
  generalize ((loadConfig Session.host reader sources.baseDir).run s).2 = loaded at hdisk hbuilt ⊢
  rw [← hdisk] at hmade
  simp only [hmade] at hbuilt
  refine ⟨loaded.withDirectory (sources.outputDir config), ?_, ?_, hbuilt.1, hbuilt.2⟩
  · rw [Session.withDirectory, Session.withDirectory, hdisk]
  · rw [Session.attemptsAt]
    simp only [hmade]

theorem chained_attempts :
    Attempt.Chained (s.withDirectory (sources.outputDir config)) (s.attempts reader input) := by
  obtain ⟨start, hstart, hattempts, -⟩ := exists_attempts_of_build hsources hconfig hmade
  refine ⟨fun i a ha => ?_, fun i a ha => ?_, fun a _ => a.ends, fun a _ e he => a.disk_after_of_error he⟩
  · rw [hattempts] at ha ⊢
    obtain ⟨hbefore, -⟩ := getElem?_attemptsFrom ha
    rw [hbefore, Session.disk_behind hstart]
  · rw [hattempts] at ha ⊢
    obtain ⟨-, hlabels⟩ := getElem?_attemptsFrom ha
    rw [hlabels, Nat.zero_add]

/-- What is different behind a build. -/
theorem changed_of_build {place : Location}
    (h : ((build Session.host reader input).run s).2.disk.get? place ≠ s.disk.get? place) :
    (s.disk.get? place = none ∧ ((build Session.host reader input).run s).2.disk.get? place = some .directory ∧
      ∃ p ∈ sources.outputDir config :: (sources.outputDir config).ancestors,
        ((build Session.host reader input).run s).2.disk.locate p = .ok place) ∨
    ∃ p ∈ Attempt.outputs (s.attempts reader input),
      ((build Session.host reader input).run s).2.disk.locate p = .ok place := by
  obtain ⟨start, hstart, hattempts, hdisk, -⟩ := exists_attempts_of_build hsources hconfig hmade
  have hmakes : s.disk.Makes start.disk (sources.outputDir config :: (sources.outputDir config).ancestors) := by
    rw [hstart]
    exact s.disk.makes_makeDirectories _
  have htouches :
      start.disk.Touches ((build Session.host reader input).run s).2.disk
        (Attempt.outputs (s.attempts reader input)) := by
    rw [hdisk, hattempts]
    exact touches_attemptsFrom ..
  by_cases hlate : ((build Session.host reader input).run s).2.disk.get? place = start.disk.get? place
  · have hearly : start.disk.get? place ≠ s.disk.get? place := hlate ▸ h
    obtain ⟨hdir, p, hp, hlocate⟩ := hmakes.frame place hearly
    exact Or.inl ⟨hmakes.get?_eq_none hearly, hlate ▸ hdir, p, hp, htouches.grows.locate hlocate⟩
  · exact Or.inr (htouches.frame place hlate)

end

/-- A build as a whole, whatever reads its configuration. There is one attempt at each source, in ascending order,
whatever the order in which the disk lists them. The build succeeds when all attempts do, and else tells how many of
them failed. An attempt that fails leaves the disk as it was, and keeps the label numbers that it drew. What is new or
different behind the build is the output directory, or one of those above it, or the output of an attempt that
succeeded. -/
theorem build_of_attempts {s : Session} {reader : ConfigReader} {input : Path} {sources : Sources} {config : Config}
    (hproper : s.disk.Proper) (hsources : ((discover Session.host input).run s).1 = .ok sources)
    (hconfig : ((loadConfig Session.host reader sources.baseDir).run s).1 = .ok config)
    (hmade : (s.disk.makeDirectories (sources.outputDir config)).1 = .ok ()) :
    let built := (build Session.host reader input).run s
    let attempts := s.attempts reader input
    let start := s.withDirectory (sources.outputDir config)
    sources.StandFor s.disk input ∧ attempts.map (·.source) = sources.files ∧
    built.1 = (if attempts.all (·.outcome.isOk) then .ok ()
      else .error (.failed (attempts.countP (!·.outcome.isOk)) attempts.length)) ∧
    Attempt.Chained start attempts ∧ built.2.disk = (start.behind attempts).disk ∧
    ∀ place, built.2.disk.get? place ≠ s.disk.get? place →
      (s.disk.get? place = none ∧ built.2.disk.get? place = some .directory ∧
        ∃ p ∈ sources.outputDir config :: (sources.outputDir config).ancestors, built.2.disk.locate p = .ok place) ∨
      ∃ p ∈ Attempt.outputs attempts, built.2.disk.locate p = .ok place := by
  intro built attempts start
  obtain ⟨start', hstart, hattempts, hdisk, hresult⟩ := exists_attempts_of_build hsources hconfig hmade
  have hfiles : attempts.map (·.source) = sources.files := by
    rw [show attempts = _ from hattempts]
    exact map_source_attemptsFrom ..
  refine ⟨standFor_of_discover hproper hsources, hfiles, ?_, chained_attempts hsources hconfig hmade, ?_,
    fun place hplace => changed_of_build hsources hconfig hmade hplace⟩
  · have hall : attempts.countP (!·.outcome.isOk) = 0 ↔ attempts.all (·.outcome.isOk) = true := by
      simp [List.countP_eq_zero]
    have hlength : attempts.length = sources.files.length := by rw [← hfiles, List.length_map]
    simp only [← hall, hlength]
    exact hresult
  · rw [show built.2.disk = _ from hdisk]
    exact Session.disk_behind hstart _

/-- A directory of four sources, elsewhere than the working directory. The second one breaks off behind a loop and has
an older output, and the third one is no text. -/
def mixedSession : Session :=
  { disk := {
      entries := [(["home"], .directory), (["tmp"], .directory), (["tmp", "p"], .directory),
        (["tmp", "p", "A.jack"], .file "class A { function void f() { if (true) { } return; } }".toUTF8),
        (["tmp", "p", "B.jack"], .file "class B { function void f() { while (true) { } let x = 1; } }".toUTF8),
        (["tmp", "p", "C.jack"], .file ⟨#[255]⟩),
        (["tmp", "p", "D.jack"], .file "class D { function void f() { while (false) { } return; } }".toUTF8),
        (["tmp", "p", "output"], .directory), (["tmp", "p", "output", "B.vm"], .file "older".toUTF8)]
      workingDir := ["home"] } }

def mixedSources : Sources :=
  { baseDir := ⟨"/tmp/p"⟩, files := [⟨"/tmp/p/A.jack"⟩, ⟨"/tmp/p/B.jack"⟩, ⟨"/tmp/p/C.jack"⟩, ⟨"/tmp/p/D.jack"⟩] }

/-- The attempts at them. -/
def mixedAttempts : List Attempt :=
  ((loadConfig Session.host Config.ofText mixedSources.baseDir).run mixedSession).2.attemptsAt mixedSources {}

theorem build_of_attempts_mixed :
    let built := (build Session.host Config.ofText ⟨"/tmp/p"⟩).run mixedSession
    mixedSession.attempts Config.ofText ⟨"/tmp/p"⟩ = mixedAttempts ∧ mixedAttempts.map (·.source) = mixedSources.files ∧
    built.1 = .error (.failed 2 4) ∧ (∀ a, mixedAttempts[3]? = some a → a.labels.next = 4) ∧
    built.2.disk.get? ["tmp", "p", "output", "B.vm"] = some (.file "older".toUTF8) := by
  intro built
  have hstart : mixedSession.disk.Proper ∧ mixedSession.disk.isDirectory ⟨"/tmp/p"⟩ = true ∧
      mixedSession.disk.names ⟨"/tmp/p"⟩ = .ok ["A.jack", "B.jack", "C.jack", "D.jack", "output"] ∧
      ((loadConfig Session.host Config.ofText mixedSources.baseDir).run mixedSession).1 = .ok {} ∧
      (mixedSession.disk.makeDirectories (mixedSources.outputDir {})).1 = .ok () := by
    decide +kernel
  obtain ⟨hproper, hdir, hnames, hconfig, hmade⟩ := hstart
  have hsources : ((discover Session.host ⟨"/tmp/p"⟩).run mixedSession).1 = .ok mixedSources :=
    (discover_of_sorted hdir hnames (by decide +kernel)).trans (by decide +kernel)
  have hattempts : mixedSession.attempts Config.ofText ⟨"/tmp/p"⟩ = mixedAttempts :=
    attempts_eq_attemptsAt hsources hconfig
  have hrun : mixedAttempts.all (·.outcome.isOk) = false ∧ mixedAttempts.countP (!·.outcome.isOk) = 2 ∧
      Attempt.outputs mixedAttempts = [⟨"/tmp/p/output/A.vm"⟩, ⟨"/tmp/p/output/D.vm"⟩] ∧
      mixedAttempts.map Attempt.draws = [2, 2, 0, 2] := by
    decide +kernel
  obtain ⟨hall, hcount, houtputs, hdraws⟩ := hrun
  obtain ⟨-, hfiles, hresult, hchained, -, hchanged⟩ := build_of_attempts hproper hsources hconfig hmade
  rw [hattempts] at hfiles hresult hchained hchanged
  have hlength : mixedAttempts.length = 4 := by
    rw [← List.length_map Attempt.source, hfiles]
    rfl
  refine ⟨hattempts, hfiles, ?_, fun a ha => ?_, ?_⟩
  · rw [show built.1 = _ from hresult, hall, hcount, hlength]
    rfl
  · rw [hchained.labels 3 a ha, List.map_take, hdraws]
    rfl
  · -- Neither of the two outputs is at the place of the older one.
    by_contra hne
    have hold : mixedSession.disk.get? ["tmp", "p", "output", "B.vm"] = some (.file "older".toUTF8) := by decide +kernel
    rcases hchanged ["tmp", "p", "output", "B.vm"] (by rw [hold]; exact hne) with ⟨hnone, -⟩ | ⟨p, hp, hlocate⟩
    · rw [hold] at hnone
      cases hnone
    · rw [houtputs] at hp
      have hother (name : String) (hname : IsName name) (hp : p = Path.join ⟨"/tmp/p/output"⟩ name) :
          name = "B.vm" := by
        rw [hp] at hlocate
        obtain ⟨above, -, hplace⟩ := Disk.exists_of_locate_join (by decide) hname hlocate
        have hplace : ["tmp", "p", "output"] ++ ["B.vm"] = above ++ [name] := hplace
        obtain ⟨-, hlast⟩ := List.append_inj' hplace rfl
        exact (List.cons.inj hlast).1.symm
      rcases List.mem_cons.mp hp with rfl | hp
      · exact absurd (hother "A.vm" (by decide) (by decide)) (by decide)
      · obtain rfl := List.mem_singleton.mp hp
        exact absurd (hother "D.vm" (by decide) (by decide)) (by decide)

end JackToVm
