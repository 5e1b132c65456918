import JackToVm.File.Error
import JackToVm.Path

/-!
A tree of files and directories, with a working directory in it and the operations that a build needs. A
path is followed segment by segment, from the root when it starts with a slash, and else from the working
directory; every segment but the last must lead to a directory, and so must the last one when a slash
stands behind it. There are no links and no permissions.
-/

namespace JackToVm

/-- What is found at a place of the tree. -/
inductive Node where
  | file (content : ByteArray)
  | directory
deriving Inhabited

namespace Node

/-- Files are the same when their bytes are. -/
def decEq : (a b : Node) → Decidable (a = b)
  | file x, file y =>
    match ByteArray.instDecidableEq x y with
    | isTrue h => isTrue (h ▸ rfl)
    | isFalse h => isFalse fun e => h (file.inj e)
  | directory, directory => isTrue rfl
  | file _, directory => isFalse nofun
  | directory, file _ => isFalse nofun

instance : DecidableEq Node := decEq

end Node

/-- A place of the tree: the names on the way from the root. -/
abbrev Location := List String

/-- The files and directories of a tree. -/
structure Disk where
  entries : List (Location × Node) := []
  /-- Where a path starts that does not start at the root. -/
  workingDir : Location := []
deriving Inhabited

namespace Disk

/-! ### Places -/

/-- What is found at a place. The root is always there. -/
def get? (d : Disk) (place : Location) : Option Node :=
  if place = [] then some .directory else d.entries.lookup place

def set (d : Disk) (place : Location) (node : Node) : Disk :=
  { d with entries := (place, node) :: d.entries.filter (·.1 ≠ place) }

def isDirectoryAt (d : Disk) (place : Location) : Bool :=
  d.get? place = some .directory

/-- Puts something at a place, with the directories above it. -/
def setWithParents (d : Disk) (place : Location) (node : Node) : Disk :=
  let above := (List.range place.length).map fun n => place.take n
  let d := above.foldl (fun d dir => if (d.get? dir).isSome then d else d.set dir .directory) d
  if (d.get? place).isSome && node = .directory then d else d.set place node

/-- What is at a place now and was not there before. -/
def changes (before after : Disk) : List (Location × Node) :=
  after.entries.filter fun (place, node) => before.get? place ≠ some node

@[simp] theorem get?_nil (d : Disk) : d.get? [] = some .directory := rfl

theorem lookup_filter_ne (entries : List (Location × Node)) {place x : Location} (h : x ≠ place) :
    (entries.filter (·.1 ≠ place)).lookup x = entries.lookup x := by
  induction entries with
  | nil => rfl
  | cons entry entries ih =>
    obtain ⟨other, node⟩ := entry
    by_cases ho : other = place
    · have hx : (x == other) = false := by simpa [ho] using h
      simp only [ho, ne_eq, not_true_eq_false, decide_false, Bool.false_eq_true, not_false_eq_true,
        List.filter_cons_of_neg, List.lookup_cons]
      rw [← ho, hx]
      simpa [ho] using ih
    · rw [List.filter_cons_of_pos (by simpa using ho), List.lookup_cons, List.lookup_cons, ih]

/-- Putting something at a place changes that place alone. -/
theorem get?_set (d : Disk) {place : Location} (h : place ≠ []) (node : Node) (x : Location) :
    (d.set place node).get? x = if x = place then some node else d.get? x := by
  by_cases hx : x = place
  · subst hx
    simp [get?, set, h]
  · rw [if_neg hx]
    unfold get? set
    rw [List.lookup_cons, beq_false_of_ne hx]
    simp only [lookup_filter_ne d.entries hx]

/-! ### Following a path -/

def maxNameSize : Nat := 255

def maxPathSize : Nat := 4095

/-- Goes on from a place along segments of a path. Two dots lead to the directory above, and from the root to
the root itself. -/
def follow (d : Disk) (place : Location) : List String → Except FileError Location
  | [] => .ok place
  | segment :: rest =>
    if !d.isDirectoryAt place then .error .notADirectory
    else if Path.isIdle segment then follow d place rest
    else if segment = ".." then follow d place.dropLast rest
    else if maxNameSize < segment.utf8ByteSize then .error .nameTooLong
    else if (d.get? (place ++ [segment])).isSome then follow d (place ++ [segment]) rest
    else .error .notFound

/-- The segments of a path that may be followed. The first one is empty when the path starts at the root. -/
def segmentsOf (p : Path) : Except FileError (List String) :=
  if p.text.toList.contains '\x00' then .error .zeroInPath
  else if maxPathSize < p.text.utf8ByteSize then .error .nameTooLong
  else if p.text = "" then .error .notFound
  else .ok p.segments

/-- The place where a path starts. -/
def origin (d : Disk) (p : Path) : Location :=
  if p.isAbsolute then [] else d.workingDir

def locate (d : Disk) (p : Path) : Except FileError Location := do
  d.follow (d.origin p) (← segmentsOf p)

/-- What a path leads to, if it leads to anything. -/
def find? (d : Disk) (p : Path) : Option Node :=
  match d.locate p with
  | .ok place => d.get? place
  | .error _ => none

def isDirectory (d : Disk) (p : Path) : Bool :=
  d.find? p = some .directory

def isFile (d : Disk) (p : Path) : Bool :=
  match d.find? p with
  | some (.file _) => true
  | _ => false

/-! ### Reading -/

/-- The names in the directory that a path leads to. -/
def names (d : Disk) (p : Path) : Except FileError (List String) := do
  let place ← d.locate p
  if d.isDirectoryAt place then
    return d.entries.filterMap fun (other, _) => if other.dropLast = place then other.getLast? else none
  else .error .notADirectory

/-- The content of the file that a path leads to. -/
def read (d : Disk) (p : Path) : Except FileError ByteArray := do
  match d.get? (← d.locate p) with
  | some (.file content) => .ok content
  | some .directory => .error .isADirectory
  | none => .error .notFound

/-! ### Writing -/

/-- The place of the name at the end of a path from a place. A path that ends in dots or in a slash has none. -/
def target? (d : Disk) (start : Location) (segments : List String) : Except FileError (Option Location) := do
  let place ← d.follow start segments.dropLast
  if !d.isDirectoryAt place then .error .notADirectory
  else
    match segments.getLast? with
    | some name =>
      if Path.isIdle name || name = ".." then return none
      else if maxNameSize < name.utf8ByteSize then .error .nameTooLong
      else return some (place ++ [name])
    | none => return none

/-- Makes the file that a path leads to, or gives it new content. -/
def write (d : Disk) (p : Path) (content : ByteArray) : Except FileError Disk := do
  match ← d.target? (d.origin p) (← segmentsOf p) with
  | none => .error .isADirectory
  | some place =>
    if d.isDirectoryAt place then .error .isADirectory else return d.set place (.file content)

/-- Makes a directory. Slashes at the end of its path do not matter. -/
def makeDirectory (d : Disk) (p : Path) : Except FileError Disk := do
  let segments := ((← segmentsOf p).reverse.dropWhile (· = "")).reverse
  match ← d.target? (d.origin p) segments with
  | none => .error .alreadyExists
  | some place =>
    if (d.get? place).isSome then .error .alreadyExists else return d.set place .directory

def ensureDirectory (d : Disk) (p : Path) : Except FileError Disk :=
  match d.makeDirectory p with
  | .ok d => .ok d
  | .error e => if d.isDirectory p then .ok d else .error e

/-- Tries a change that happens as a whole or not at all. -/
def attempt (d : Disk) (change : Disk → Except FileError Disk) : Except FileError Unit × Disk :=
  match change d with
  | .ok d => (.ok (), d)
  | .error e => (.error e, d)

/-- Makes a directory and those above it that are not there; the latter are given, the nearest first. What
was made before a failure stays. -/
def makeBelow (d : Disk) (p : Path) (above : List Path) : Except FileError Unit × Disk :=
  if p.text = "" then (.ok (), d)
  else
    match d.makeDirectory p, above with
    | .error .notFound, parent :: above =>
      match d.makeBelow parent above with
      | (.ok (), d) => d.attempt (·.ensureDirectory p)
      | failed => failed
    | _, _ => d.attempt (·.ensureDirectory p)

/-- Makes a directory and those above it that are not there. -/
def makeDirectories (d : Disk) (p : Path) : Except FileError Unit × Disk :=
  d.makeBelow p p.ancestors

end Disk

end JackToVm
