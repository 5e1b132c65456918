/-!
Paths of files as texts. A path keeps the form it was written in: the segments between slashes, of which
an empty one and a dot that is not the first say nothing. The operations look at the last segment that
says something, and cut the text behind it.
-/

namespace JackToVm

/-- A path as it is written. -/
structure Path where
  text : String
deriving DecidableEq, Repr, Inhabited

namespace Path

/-! ### Segments -/

def splitSlash : List Char → List (List Char)
  | [] => [[]]
  | c :: rest =>
    if c = '/' then [] :: splitSlash rest
    else
      match splitSlash rest with
      | [] => [[c]]
      | segment :: segments => (c :: segment) :: segments

def segments (p : Path) : List String :=
  (splitSlash p.text.toList).map String.ofList

def ofSegments (segments : List String) : Path :=
  { text := "/".intercalate segments }

def isAbsolute (p : Path) : Bool :=
  p.text.toList.head? = some '/'

def isIdle (segment : String) : Bool :=
  segment = "" || segment = "."

/-- Drops idle segments at the end. The first segment stays. -/
def trimEnd : List String → List String
  | [] => []
  | first :: rest => first :: (rest.reverse.dropWhile isIdle).reverse

/-- The segments up to the last one that says something. The empty path has none. -/
def trimmed (p : Path) : List String :=
  if p.text = "" then [] else trimEnd p.segments

/-! ### Parts of a path -/

/-- The name of the file that a path leads to. There is none when the path ends in dots. -/
def fileName? (p : Path) : Option String :=
  match p.trimmed.getLast? with
  | some name => if isIdle name || name = ".." then none else some name
  | none => none

/-- A file name cut at its last dot. A dot at the start does not count. -/
def splitName (name : String) : String × Option String :=
  let backwards := name.toList.reverse
  match backwards.dropWhile (· ≠ '.') with
  | '.' :: stem =>
    if stem = [] || name = ".." then (name, none)
    else (String.ofList stem.reverse, some (String.ofList (backwards.takeWhile (· ≠ '.')).reverse))
  | _ => (name, none)

def stem? (p : Path) : Option String :=
  p.fileName?.map fun name => (splitName name).1

def extension? (p : Path) : Option String :=
  p.fileName?.bind fun name => (splitName name).2

/-- The path of the directory that holds what a path leads to. The root is in none. -/
def parent? (p : Path) : Option Path :=
  match p.trimmed with
  | [] => none
  | [""] => none
  | segments =>
    match trimEnd segments.dropLast with
    | [""] => some { text := "/" }
    | above => some (ofSegments above)

def ancestors (p : Path) : List Path :=
  go p.segments.length p
where
  /-- At most so many of them. -/
  go : Nat → Path → List Path
    | 0, _ => []
    | n + 1, p =>
      match p.parent? with
      | some q => q :: go n q
      | none => []

/-! ### New paths -/

/-- The path inside a directory. A path from the root stays as it is. -/
def join (dir : Path) (inside : String) : Path :=
  if inside.toList.head? = some '/' then { text := inside }
  else if dir.text = "" || dir.text.toList.getLast? = some '/' then { text := dir.text ++ inside }
  else { text := dir.text ++ "/" ++ inside }

/-- The path without the characters of its extension. The dot before them stays. -/
def cutExtension (p : Path) : Path :=
  match p.extension? with
  | some extension => { text := String.ofList (p.text.toList.take (p.text.length - extension.length)) }
  | none => p

/-- The path with another extension; the empty extension takes the dot away with it. The old extension is
cut off first: a name of which two dots are left then is no file name, and gets no extension. -/
def withExtension (p : Path) (extension : String) : Path :=
  let p := p.cutExtension
  match p.stem? with
  | none => p
  | some stem =>
    let name := if extension = "" then stem else s!"{stem}.{extension}"
    ofSegments (p.trimmed.dropLast ++ [name])

end Path

end JackToVm
