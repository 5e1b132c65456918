import JackToVm.Build
import JackToVm.Proofs.Places
import Mathlib.Data.List.Nodup

/-!
The sources that a build finds on the disk of a session. Each of them is a file whose name is a stem and the extension
of sources, and no two of them have one name (`found_of_discover`). Neither finding them nor loading a configuration
changes the disk.
-/

namespace JackToVm
open JackToVm.Path (IsName isIdle)

/-! ### Sessions -/

/-- The text of the file that a path leads to. -/
def Disk.readText (d : Disk) (p : Path) : Except FileError String :=
  match d.read p with
  | .ok content =>
    match String.fromUTF8? content with
    | some text => .ok text
    | none => .error .notText
  | .error e => .error e

namespace Session

theorem run_bind {α β : Type} (x : StateM Session α) (f : α → StateM Session β) (s : Session) :
    (x >>= f).run s = (f (x.run s).1).run (x.run s).2 := rfl

theorem run_readText (s : Session) (p : Path) : (host.readText p).run s = (s.disk.readText p, s) := by
  simp only [Host.readText, run_bind, show (host.read p).run s = (s.disk.read p, s) from rfl, Disk.readText]
  cases s.disk.read p with
  | error e => rfl
  | ok content =>
    dsimp only
    cases String.fromUTF8? content <;> rfl

theorem run_filterM {s : Session} {f : Path → StateM Session Bool} {g : Path → Bool}
    (h : ∀ p, (f p).run s = (g p, s)) (ps : List Path) : (ps.filterM f).run s = (ps.filter g, s) := by
  have haux (acc : List Path) : (ps.filterAuxM f acc).run s = ((ps.filter g).reverse ++ acc, s) := by
    induction ps generalizing acc with
    | nil => rfl
    | cons p ps ih =>
      rw [List.filterAuxM, run_bind, h, ih]
      cases hp : g p <;> simp [hp]
  rw [List.filterM, run_bind, haux, List.append_nil]
  exact congrArg (·, s) (List.reverse_reverse _)

end Session

/-! ### Sources and configuration -/

/-- Finding the sources looks at the disk and leaves it as it is. -/
theorem run_discover (input : Path) (s : Session) :
    (discover Session.host input).run s =
      (if s.disk.isDirectory input then
        match s.disk.names input with
        | .ok names =>
          .ok { baseDir := input, files := (entryPaths input names).filter fun p => p.isSource && s.disk.isFile p }
        | .error e => .error (.file e)
      else if input.isSource && s.disk.isFile input then .ok { baseDir := sourceDir input, files := [input] }
      else .error (.notASource input), s) := by
  have hfilter (ps : List Path) := Session.run_filterM (s := s)
    (f := fun p => if p.isSource then Session.host.isFile p else return false)
    (g := fun p => p.isSource && s.disk.isFile p) (fun p => by cases p.isSource <;> rfl) ps
  simp only [discover, Session.run_bind,
    show (Session.host.isDirectory input).run s = (s.disk.isDirectory input, s) from rfl]
  cases s.disk.isDirectory input with
  | false =>
    simp only [Bool.false_eq_true, if_false, Session.run_bind,
      show (Session.host.isFile input).run s = (s.disk.isFile input, s) from rfl]
    cases input.isSource && s.disk.isFile input <;> rfl
  | true =>
    simp only [if_true, Session.run_bind, show (Session.host.names input).run s = (s.disk.names input, s) from rfl]
    cases s.disk.names input with
    | error e => rfl
    | ok names =>
      simp only [Session.run_bind, hfilter]
      rfl

theorem disk_run_loadConfig (reader : ConfigReader) (dir : Path) (s : Session) :
    ((loadConfig Session.host reader dir).run s).2.disk = s.disk := by
  simp only [loadConfig, Session.run_bind, s.run_readText]
  split
  · rfl
  · rfl
  · split <;> rfl

/-! ### Sources on a disk -/

/-- Every place is there once, and every name on the way to it is a file name. -/
structure Disk.Proper (d : Disk) : Prop where
  once : (d.entries.map (·.1)).Nodup
  names : ∀ entry ∈ d.entries, ∀ name ∈ entry.1, IsName name

instance (d : Disk) : Decidable d.Proper :=
  decidable_of_iff ((d.entries.map (·.1)).Nodup ∧ ∀ entry ∈ d.entries, ∀ name ∈ entry.1, IsName name)
    ⟨fun ⟨once, names⟩ => ⟨once, names⟩, fun h => ⟨h.once, h.names⟩⟩

theorem Disk.Proper.names_eq_ok {d : Disk} (h : d.Proper) {p : Path} {names : List String}
    (hnames : d.names p = .ok names) : names.Nodup ∧ ∀ name ∈ names, IsName name := by
  obtain ⟨place, -, hnames⟩ := exists_of_bind_eq_ok hnames
  split at hnames
  case isFalse => cases hnames
  case isTrue =>
    have hlast {other : Location} {name : String}
        (hmem : (if other.dropLast = place then other.getLast? else none) = some name) : other = place ++ [name] := by
      split at hmem
      · obtain ⟨above, rfl⟩ := List.getLast?_eq_some_iff.mp hmem
        simp_all
      · cases hmem
    cases hnames
    constructor
    · refine (List.pairwise_map.mp h.once).filterMap _ fun entry entry' hne name hmem name' hmem' heq => hne ?_
      rw [hlast hmem, hlast hmem', heq]
    · intro name hname
      obtain ⟨⟨other, node⟩, hentry, hmem⟩ := List.mem_filterMap.mp hname
      exact h.names _ hentry name (by simp [hlast hmem])

/-- A source of some stem, in the directory at a place. -/
structure SourceOn (d : Disk) (f : Path) (stem : String) (above : Location) (content : ByteArray) : Prop where
  nonempty : stem ≠ ""
  isName : IsName (stem ++ "." ++ sourceExtension)
  stem? : f.stem? = some stem
  fileName? : f.fileName? = some (stem ++ "." ++ sourceExtension)
  locate : d.locate f = .ok (above ++ [stem ++ "." ++ sourceExtension])
  get? : d.get? (above ++ [stem ++ "." ++ sourceExtension]) = some (.file content)

/-- A file with the extension of sources has a stem. -/
theorem exists_sourceOn {d : Disk} {f : Path} (hsource : f.isSource = true) (hfile : d.isFile f = true) :
    ∃ stem above content, SourceOn d f stem above content := by
  obtain ⟨place, content, hplace, hcontent⟩ := Disk.exists_of_isFile hfile
  obtain ⟨-, hfollow⟩ := Disk.locate_eq_ok_iff.mp hplace
  obtain ⟨front, last, hsegments, hslash⟩ := f.exists_last_segment
  rw [hsegments, Disk.follow_append] at hfollow
  obtain ⟨above, -, hfollow⟩ := exists_of_bind_eq_ok hfollow
  -- A segment that says nothing would lead to a directory, and dots to no file name.
  have hbusy : isIdle last = false := by
    by_contra hidle
    obtain ⟨hdir, rfl⟩ := (Disk.follow_idle (by simpa using hidle)).mp hfollow
    rw [hdir] at hcontent
    cases hcontent
  have hfileName := Path.fileName?_of_segments hbusy hsegments
  have hup : last ≠ ".." := by
    rintro rfl
    simp [Path.isSource, Path.extension?, hfileName] at hsource
  rw [if_neg hup] at hfileName
  have hname : IsName last := ⟨hbusy, hup, hslash⟩
  obtain ⟨-, -, -, rfl⟩ := (Disk.follow_name hname).mp hfollow
  rw [Path.isSource, decide_eq_true_eq, Path.extension?, hfileName, Option.bind_some] at hsource
  rcases Path.splitName_cases last with hsplit | ⟨stem, extension, hstem, -, rfl, hsplit⟩
  · rw [hsplit] at hsource
    cases hsource
  · rw [hsplit] at hsource
    cases hsource
    refine ⟨stem, above, content, hstem, hname, ?_, hfileName, hplace, hcontent⟩
    rw [Path.stem?, hfileName, Option.map_some, hsplit]

/-- The sources of a build are files, and no two of them have one name. -/
structure Sources.Found (sources : Sources) (d : Disk) : Prop where
  base : sources.baseDir.text ≠ ""
  source : ∀ f ∈ sources.files, ∃ stem above content, SourceOn d f stem above content
  once : (sources.files.map Path.fileName?).Nodup

theorem text_sourceDir_ne_empty (source : Path) : (sourceDir source).text ≠ "" := by
  unfold sourceDir
  split
  · split
    · simp
    · assumption
  · simp

theorem nodup_entryPaths (dir : Path) {names : List String} (hnodup : names.Nodup)
    (hnames : ∀ name ∈ names, IsName name) : ((entryPaths dir names).map Path.fileName?).Nodup := by
  have hperm := names.mergeSort_perm fun a b => decide (a ≤ b)
  rw [entryPaths, List.map_map, List.map_congr_left (g := some)]
  · exact (hperm.nodup_iff.mpr hnodup).map fun _ _ => Option.some.inj
  · intro name hname
    exact Path.fileName?_join (hnames name (hperm.mem_iff.mp hname)) dir

theorem found_of_discover {s : Session} {input : Path} {sources : Sources} (hproper : s.disk.Proper)
    (h : ((discover Session.host input).run s).1 = .ok sources) : sources.Found s.disk := by
  rw [run_discover] at h
  dsimp only at h
  split at h
  case isTrue hdir =>
    cases hnames : s.disk.names input with
    | error e => simp [hnames] at h
    | ok names =>
      obtain ⟨hnodup, hname⟩ := hproper.names_eq_ok hnames
      simp only [hnames, Except.ok.injEq] at h
      subst h
      refine ⟨Disk.text_ne_empty_of_isDirectory hdir, fun f hf => ?_, ?_⟩
      · obtain ⟨hsource, hfile⟩ := Bool.and_eq_true_iff.mp (List.mem_filter.mp hf).2
        exact exists_sourceOn hsource hfile
      · exact (nodup_entryPaths input hnodup hname).sublist (List.filter_sublist.map _)
  case isFalse =>
    split at h
    case isTrue hsource =>
      cases h
      refine ⟨text_sourceDir_ne_empty input, fun f hf => ?_, List.pairwise_singleton _ _⟩
      obtain rfl := List.mem_singleton.mp hf
      obtain ⟨hsource, hfile⟩ := Bool.and_eq_true_iff.mp hsource
      exact exists_sourceOn hsource hfile
    case isFalse => cases h

/-- The sources of a directory whose names are in ascending order. -/
theorem discover_of_sorted {s : Session} {input : Path} {names : List String} (hdir : s.disk.isDirectory input = true)
    (hnames : s.disk.names input = .ok names) (hsorted : names.Pairwise fun a b => decide (a ≤ b) = true) :
    ((discover Session.host input).run s).1 =
      .ok { baseDir := input, files := (names.map input.join).filter fun p => p.isSource && s.disk.isFile p } := by
  rw [run_discover]
  simp only [hdir, hnames, if_true, entryPaths, List.mergeSort_of_pairwise hsorted]

end JackToVm
