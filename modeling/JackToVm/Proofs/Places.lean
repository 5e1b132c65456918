import JackToVm.File.Disk
import JackToVm.Proofs.Paths

/-!
Places that paths lead to. A file in a directory is at the place of the directory with its name behind it
(`exists_of_locate_join`). A disk grows while directories are made and files are written, and a path that leads
to a place leads to it afterwards too (`Grows.locate`): making directories keeps all that is there
(`keeps_makeDirectories`), and writing a file in a directory changes one place (`exists_of_write_join`).
-/

namespace JackToVm

theorem exists_of_bind_eq_ok {ε α β : Type} {x : Except ε α} {f : α → Except ε β} {b : β}
    (h : (x >>= f) = .ok b) : ∃ a, x = .ok a ∧ f a = .ok b := by
  cases x with
  | error e => cases h
  | ok a => exact ⟨a, rfl, h⟩

namespace Disk
open JackToVm.Path (IsName isIdle)

/-! ### Following a path -/

theorem follow_append (d : Disk) (place : Location) (xs ys : List String) :
    d.follow place (xs ++ ys) = (d.follow place xs).bind fun middle => d.follow middle ys := by
  induction xs generalizing place with
  | nil => rfl
  | cons segment xs ih =>
    simp only [List.cons_append, follow, ih]
    repeat' split
    all_goals rfl

/-- A segment that says nothing leads from a directory to itself. -/
theorem follow_idle {d : Disk} {place after : Location} {segment : String} (h : isIdle segment = true) :
    d.follow place [segment] = .ok after ↔ d.get? place = some .directory ∧ place = after := by
  by_cases hdir : d.get? place = some .directory <;> simp [follow, isDirectoryAt, h, hdir]

/-- A name leads from a directory to what it has of that name. -/
theorem follow_name {d : Disk} {place after : Location} {name : String} (h : IsName name) :
    d.follow place [name] = .ok after ↔
      d.get? place = some .directory ∧ name.utf8ByteSize ≤ maxNameSize ∧ (d.get? (place ++ [name])).isSome = true ∧
        place ++ [name] = after := by
  by_cases hdir : d.get? place = some .directory
  · by_cases hsize : maxNameSize < name.utf8ByteSize
    · simp [follow, isDirectoryAt, h.busy, h.notUp, hdir, hsize, Nat.not_le.mpr hsize]
    · by_cases hthere : (d.get? (place ++ [name])).isSome = true
      · simp [follow, isDirectoryAt, h.busy, h.notUp, hdir, hsize, Nat.not_lt.mp hsize, hthere]
      · simp [follow, isDirectoryAt, h.busy, h.notUp, hdir, hsize, hthere]
  · simp [follow, isDirectoryAt, hdir]

theorem segmentsOf_eq_ok_iff {p : Path} {segments : List String} :
    segmentsOf p = .ok segments ↔
      '\x00' ∉ p.text.toList ∧ p.text.utf8ByteSize ≤ maxPathSize ∧ p.text ≠ "" ∧ p.segments = segments := by
  unfold segmentsOf
  by_cases hzero : '\x00' ∈ p.text.toList
  · simp [hzero]
  · by_cases hsize : maxPathSize < p.text.utf8ByteSize
    · simp [hzero, hsize, Nat.not_le.mpr hsize]
    · by_cases hempty : p.text = "" <;> simp [hzero, hsize, hempty, Nat.not_lt.mp hsize]

theorem locate_eq_ok_iff {d : Disk} {p : Path} {place : Location} :
    d.locate p = .ok place ↔ segmentsOf p = .ok p.segments ∧ d.follow (d.origin p) p.segments = .ok place := by
  unfold locate
  cases h : segmentsOf p with
  | error e => simp [bind, Except.bind]
  | ok segments =>
    obtain ⟨-, -, -, rfl⟩ := segmentsOf_eq_ok_iff.mp h
    simp [bind, Except.bind]

theorem exists_of_isFile {d : Disk} {p : Path} (h : d.isFile p = true) :
    ∃ place content, d.locate p = .ok place ∧ d.get? place = some (.file content) := by
  unfold isFile find? at h
  split at h
  case h_2 => cases h
  case h_1 content hfind =>
    split at hfind
    case h_1 place hplace => exact ⟨place, content, hplace, hfind⟩
    case h_2 => cases hfind

theorem text_ne_empty_of_isDirectory {d : Disk} {p : Path} (h : d.isDirectory p = true) : p.text ≠ "" := by
  rw [isDirectory, decide_eq_true_eq] at h
  unfold find? at h
  split at h
  case h_1 place hplace =>
    obtain ⟨-, -, htext, -⟩ := segmentsOf_eq_ok_iff.mp (locate_eq_ok_iff.mp hplace).1
    exact htext
  case h_2 => cases h

/-! ### Files in a directory -/

/-- The segments of a directory are those in front of its names, up to a slash at the end. -/
theorem follow_front {d : Disk} {dir : Path} {start place : Location} (h : dir.text ≠ "")
    (hplace : d.get? place = some .directory) :
    d.follow start dir.segments = .ok place ↔ d.follow start dir.front = .ok place := by
  rcases Path.segments_eq_front h with heq | heq
  · rw [heq]
  · rw [heq, follow_append]
    cases d.follow start dir.front with
    | error e => exact Iff.rfl
    | ok above =>
      rw [show Except.bind (.ok above) _ = d.follow above [""] from rfl, follow_idle rfl, Except.ok.injEq]
      exact ⟨And.right, fun heq => ⟨heq ▸ hplace, heq⟩⟩

theorem segmentsOf_of_join {dir : Path} {name : String} {segments : List String} (h : dir.text ≠ "")
    (hname : name.toList.head? ≠ some '/') (hjoin : segmentsOf (dir.join name) = .ok segments) :
    segmentsOf dir = .ok dir.segments := by
  obtain ⟨slash, hlead⟩ := dir.exists_lead_eq
  rw [Path.join_eq hname, hlead, segmentsOf_eq_ok_iff] at hjoin
  obtain ⟨hzero, hsize, -, -⟩ := hjoin
  refine segmentsOf_eq_ok_iff.mpr ⟨?_, ?_, h, rfl⟩
  · exact fun hmem => hzero (by simp [hmem])
  · simp only [String.utf8ByteSize_append] at hsize
    omega

/-- The path of a file in a directory starts where that of the directory does. -/
theorem origin_join (d : Disk) {dir : Path} {name : String} (h : dir.text ≠ "") (hname : name.toList.head? ≠ some '/') :
    d.origin (dir.join name) = d.origin dir := by
  obtain ⟨slash, hlead⟩ := dir.exists_lead_eq
  obtain ⟨c, cs, hcs⟩ := Path.exists_cons_of_ne_empty h
  rw [origin, origin, Path.join_eq hname, hlead]
  simp [Path.isAbsolute, hcs]

/-- A file in a directory is at the place of the directory, with its name behind it. -/
theorem exists_of_locate_join {d : Disk} {dir : Path} {name : String} {place : Location} (h : dir.text ≠ "")
    (hname : IsName name) (hplace : d.locate (dir.join name) = .ok place) :
    ∃ above, d.locate dir = .ok above ∧ place = above ++ [name] := by
  obtain ⟨hsegments, hfollow⟩ := locate_eq_ok_iff.mp hplace
  rw [origin_join d h hname.head?_ne, Path.segments_join hname.noSlash, follow_append] at hfollow
  obtain ⟨above, habove, hfollow⟩ := exists_of_bind_eq_ok hfollow
  obtain ⟨hdir, -, -, rfl⟩ := (follow_name hname).mp hfollow
  refine ⟨above, locate_eq_ok_iff.mpr ⟨segmentsOf_of_join h hname.head?_ne hsegments, ?_⟩, rfl⟩
  exact (follow_front h hdir).mpr habove

/-! ### Growth -/

/-- A disk on which nothing went away, and on which directories are still directories. -/
structure Grows (d e : Disk) : Prop where
  workingDir : e.workingDir = d.workingDir
  present : ∀ place, (d.get? place).isSome → (e.get? place).isSome
  directory : ∀ place, d.get? place = some .directory → e.get? place = some .directory

theorem Grows.refl (d : Disk) : d.Grows d :=
  ⟨rfl, fun _ => id, fun _ => id⟩

theorem Grows.trans {d e f : Disk} (h : d.Grows e) (h' : e.Grows f) : d.Grows f :=
  ⟨h'.workingDir.trans h.workingDir, fun place hd => h'.present place (h.present place hd),
    fun place hd => h'.directory place (h.directory place hd)⟩

theorem Grows.origin {d e : Disk} (h : d.Grows e) (p : Path) : e.origin p = d.origin p := by
  rw [Disk.origin, Disk.origin, h.workingDir]

theorem Grows.follow {d e : Disk} (h : d.Grows e) {place after : Location} {segments : List String}
    (hfollow : d.follow place segments = .ok after) : e.follow place segments = .ok after := by
  induction segments generalizing place with
  | nil => exact hfollow
  | cons segment segments ih =>
    unfold Disk.follow at hfollow ⊢
    by_cases hdir : d.get? place = some .directory
    case neg => simp [isDirectoryAt, hdir] at hfollow
    simp only [isDirectoryAt, hdir, h.directory place hdir, decide_true, Bool.not_true, Bool.false_eq_true,
      if_false] at hfollow ⊢
    have hthere := h.present (place ++ [segment])
    split_ifs at hfollow ⊢ with hidle hup hsize hthere'
    · exact ih hfollow
    · exact ih hfollow
    · exact ih hfollow
    · exact hthere' (hthere ‹_›)

theorem Grows.locate {d e : Disk} (h : d.Grows e) {p : Path} {place : Location} (hplace : d.locate p = .ok place) :
    e.locate p = .ok place := by
  obtain ⟨hsegments, hfollow⟩ := locate_eq_ok_iff.mp hplace
  refine locate_eq_ok_iff.mpr ⟨hsegments, ?_⟩
  rw [h.origin]
  exact h.follow hfollow

/-- Where a disk differs behind something that came to a place is that place. -/
theorem eq_of_get?_set_ne {d : Disk} {place other : Location} (hplace : place ≠ []) {node : Node}
    (h : (d.set place node).get? other ≠ d.get? other) : other = place := by
  by_contra hother
  rw [get?_set d hplace, if_neg hother] at h
  exact h rfl

/-- Something may come to a place where no directory is. -/
theorem grows_set {d : Disk} {place : Location} (hplace : place ≠ []) (h : d.get? place ≠ some .directory)
    (node : Node) : d.Grows (d.set place node) := by
  refine ⟨rfl, fun x hx => ?_, fun x hx => ?_⟩
  · rw [get?_set d hplace]
    split
    · rfl
    · exact hx
  · rw [get?_set d hplace, if_neg, hx]
    rintro rfl
    exact h hx

/-- A disk on which everything is still there as it was. -/
structure Keeps (d e : Disk) : Prop where
  workingDir : e.workingDir = d.workingDir
  get? : ∀ place node, d.get? place = some node → e.get? place = some node

theorem Keeps.refl (d : Disk) : d.Keeps d :=
  ⟨rfl, fun _ _ => id⟩

theorem Keeps.trans {d e f : Disk} (h : d.Keeps e) (h' : e.Keeps f) : d.Keeps f :=
  ⟨h'.workingDir.trans h.workingDir, fun place node hd => h'.get? place node (h.get? place node hd)⟩

theorem Keeps.grows {d e : Disk} (h : d.Keeps e) : d.Grows e := by
  refine ⟨h.workingDir, fun place hd => ?_, fun place => h.get? place .directory⟩
  obtain ⟨node, hnode⟩ := Option.isSome_iff_exists.mp hd
  rw [h.get? place node hnode]
  rfl

theorem keeps_set {d : Disk} {place : Location} (hplace : place ≠ []) (h : d.get? place = none) (node : Node) :
    d.Keeps (d.set place node) := by
  refine ⟨rfl, fun x n hx => ?_⟩
  rw [get?_set d hplace, if_neg, hx]
  rintro rfl
  rw [h] at hx
  cases hx

/-! ### Making directories -/

/-- Something new comes into a directory, under the name at the end of its path. -/
theorem exists_of_target? {d : Disk} {start : Location} {segments : List String} {place : Location}
    (h : d.target? start segments = .ok (some place)) :
    ∃ above name, d.follow start segments.dropLast = .ok above ∧ d.get? above = some .directory ∧
      segments.getLast? = some name ∧ name.utf8ByteSize ≤ maxNameSize ∧ place = above ++ [name] := by
  obtain ⟨above, hfollow, h⟩ := exists_of_bind_eq_ok h
  by_cases hdir : d.get? above = some .directory
  case neg => simp [isDirectoryAt, hdir] at h
  simp only [isDirectoryAt, hdir, decide_true, Bool.not_true, Bool.false_eq_true, if_false] at h
  cases hname : segments.getLast? with
  | none =>
    rw [hname] at h
    cases h
  | some name =>
    simp only [hname] at h
    split at h
    · cases h
    split at h
    · cases h
    case isFalse hsize =>
      cases h
      exact ⟨above, name, hfollow, hdir, rfl, Nat.not_lt.mp hsize, rfl⟩

theorem keeps_of_makeDirectory {d e : Disk} {p : Path} (h : d.makeDirectory p = .ok e) : d.Keeps e := by
  obtain ⟨segments, -, h⟩ := exists_of_bind_eq_ok h
  obtain ⟨place?, htarget, h⟩ := exists_of_bind_eq_ok h
  cases place? with
  | none => cases h
  | some place =>
    obtain ⟨above, name, -, -, -, -, rfl⟩ := exists_of_target? htarget
    dsimp only at h
    split at h
    · cases h
    case isFalse hfree =>
      cases h
      exact keeps_set (by simp) (by simpa using hfree) _

theorem keeps_attempt_ensureDirectory (d : Disk) (p : Path) : d.Keeps (d.attempt (·.ensureDirectory p)).2 := by
  unfold attempt
  beta_reduce
  cases hensure : d.ensureDirectory p with
  | error e => exact .refl d
  | ok e =>
    unfold ensureDirectory at hensure
    split at hensure
    case h_1 hmake =>
      cases hensure
      exact keeps_of_makeDirectory hmake
    case h_2 =>
      split at hensure
      · cases hensure
        exact .refl d
      · cases hensure

theorem keeps_makeBelow (d : Disk) (p : Path) (above : List Path) : d.Keeps (d.makeBelow p above).2 := by
  fun_induction d.makeBelow p above with
  | case1 => exact .refl d
  | case2 p _ parent above _ e hbelow ih =>
    rw [hbelow] at ih
    exact ih.trans (e.keeps_attempt_ensureDirectory p)
  | case3 p _ parent above _ _ ih => exact ih
  | case4 => exact d.keeps_attempt_ensureDirectory _

/-- Making directories leaves everything that is there as it is, also when it fails. -/
theorem keeps_makeDirectories (d : Disk) (p : Path) : d.Keeps (d.makeDirectories p).2 :=
  d.keeps_makeBelow p p.ancestors

/-! ### Writing a file -/

theorem exists_of_write {d e : Disk} {p : Path} {content : ByteArray} (h : d.write p content = .ok e) :
    ∃ place, segmentsOf p = .ok p.segments ∧ d.target? (d.origin p) p.segments = .ok (some place) ∧
      d.get? place ≠ some .directory ∧ e = d.set place (.file content) := by
  obtain ⟨segments, hsegments, h⟩ := exists_of_bind_eq_ok h
  obtain ⟨-, -, -, rfl⟩ := segmentsOf_eq_ok_iff.mp hsegments
  obtain ⟨place?, htarget, h⟩ := exists_of_bind_eq_ok h
  cases place? with
  | none => cases h
  | some place =>
    dsimp only at h
    split at h
    · cases h
    case isFalse hplace =>
      cases h
      exact ⟨place, hsegments, htarget, by simpa [isDirectoryAt] using hplace, rfl⟩

/-- Writing a file in a directory puts it at one place, where no directory is. -/
theorem exists_of_write_join {d e : Disk} {dir : Path} {name : String} {content : ByteArray} (h : dir.text ≠ "")
    (hname : IsName name) (hwrite : d.write (dir.join name) content = .ok e) :
    ∃ above, d.locate dir = .ok above ∧ d.get? (above ++ [name]) ≠ some .directory ∧
      e = d.set (above ++ [name]) (.file content) ∧ e.locate (dir.join name) = .ok (above ++ [name]) := by
  obtain ⟨place, hsegments, htarget, hplace, rfl⟩ := exists_of_write hwrite
  obtain ⟨above, last, hfollow, hdir, hlast, hsize, rfl⟩ := exists_of_target? htarget
  have horigin := origin_join d h hname.head?_ne
  rw [horigin, Path.segments_join hname.noSlash, List.dropLast_concat] at hfollow
  rw [Path.segments_join hname.noSlash, List.getLast?_concat, Option.some.injEq] at hlast
  subst hlast
  have hne : above ++ [name] ≠ [] := by simp
  have hgrows := grows_set hne hplace (.file content)
  refine ⟨above, locate_eq_ok_iff.mpr ⟨segmentsOf_of_join h hname.head?_ne hsegments, ?_⟩, hplace, rfl,
    locate_eq_ok_iff.mpr ⟨hsegments, ?_⟩⟩
  · exact (follow_front h hdir).mpr hfollow
  · rw [hgrows.origin, horigin, Path.segments_join hname.noSlash, follow_append, hgrows.follow hfollow]
    refine (follow_name hname).mpr ⟨hgrows.directory _ hdir, hsize, ?_, rfl⟩
    rw [get?_set d hne, if_pos rfl]
    rfl

theorem read_of_locate {d : Disk} {p : Path} {place : Location} {content : ByteArray} (h : d.locate p = .ok place)
    (hfile : d.get? place = some (.file content)) : d.read p = .ok content := by
  simp only [read, h, bind, Except.bind, hfile]

end Disk
end JackToVm
