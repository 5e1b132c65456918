import JackToVm.Config.Layout

/-!
Configuration documents: a part of YAML that leaves out how scalars are typed. Every scalar is a text, and a
node that is not there counts as an empty one. The marks of a document are read with an agenda: each goal
looks at the next mark only.
-/

namespace JackToVm.Config

/-- A value of a document. -/
inductive Value where
  /-- A node that is not there. -/
  | empty
  | text (text : String)
  | list (values : List Value)
  | map (entries : List (Value × Value))
  /-- Stands for the node that an anchor was set at. -/
  | alias (anchor : Nat)
deriving Repr, Inhabited

/-- A document: its value, and what is known of the nodes with an anchor, the latest first. -/
structure Document where
  root : Value := .empty
  /-- The texts of scalars; other nodes have none. -/
  anchored : List (Nat × Option String) := []
deriving Repr, Inhabited

def Document.text? (d : Document) : Value → Option String
  | .empty => some ""
  | .text text => some text
  | .alias anchor => (d.anchored.lookup anchor).join
  | _ => none

/-! ### Building values -/

/-- A collection that is not complete yet, its last part first. -/
inductive Frame where
  | list (values : List Value)
  /-- The entries of a map, and a key that waits for its value. -/
  | map (entries : List (Value × Value)) (key? : Option Value)
deriving Repr, Inhabited

def Frame.value : Frame → Value
  | list values => .list values.reverse
  | map entries _ => .map entries.reverse

/-- How far a document has been read. -/
structure Reading where
  marks : List Mark
  /-- The collections that are open, the innermost first. -/
  frames : List Frame := []
  document : Document := {}
  /-- The handles that tags may have. -/
  handles : List String := ["!", "!!"]
  /-- The names of anchors, each with the number of the node that it was set at last. -/
  anchors : List (String × Nat) := []
deriving Repr, Inhabited

namespace Reading

def skip (s : Reading) : Reading :=
  { s with marks := s.marks.tail }

/-- Tells whether the next mark is one of some. -/
def isAt (s : Reading) (marks : List Mark) : Bool :=
  s.marks.head?.any marks.contains

/-- Puts a value where it belongs: into the innermost collection, or as the value of the document. -/
def put (s : Reading) (value : Value) : Reading :=
  match s.frames with
  | [] => { s with document := { s.document with root := value } }
  | .list values :: frames => { s with frames := .list (value :: values) :: frames }
  | .map entries none :: frames => { s with frames := .map entries (some value) :: frames }
  | .map entries (some key) :: frames => { s with frames := .map ((key, value) :: entries) none :: frames }

def openFrame (s : Reading) (frame : Frame) : Reading :=
  { s with frames := frame :: s.frames }

def closeFrame (s : Reading) : Reading :=
  match s.frames with
  | [] => s
  | frame :: frames => { s with frames }.put frame.value

/-- Sets an anchor, if there is one, at a node with a text or without one. A name that was set before is
taken from its old node. -/
def setAnchor (s : Reading) (name? : Option String) (text? : Option String) : Reading :=
  match name? with
  | none => s
  | some name =>
    let number := s.anchors.length
    { s with
      anchors := (name, number) :: s.anchors.filter (·.1 ≠ name)
      document := { s.document with anchored := (number, text?) :: s.document.anchored } }

end Reading

/-! ### Goals -/

/-- What is to be read next. -/
inductive Goal where
  /-- A node. In a block it may be a block itself; the value of a key may be a list that is not indented. -/
  | node (inBlock loose : Bool)
  /-- The entries of a list in block form. -/
  | blockList
  /-- The entries of a list that is not indented. -/
  | looseList
  /-- The entries of a map in block form. -/
  | blockMap
  | blockValue
  /-- The entries of a flow list, with the comma before the next one. -/
  | flowList (first : Bool)
  /-- The key of a pair in a flow list, which is a map of its own. -/
  | pairKey
  | pairValue
  | pairEnd
  /-- The entries of a flow map, with the comma before the next one. -/
  | flowMap (first : Bool)
  | flowValue
  /-- The value of a key without a colon. -/
  | noValue
deriving DecidableEq, Repr, Inhabited

namespace Goal

/-- The goals that take the place of a goal, and what was read. -/
abbrev Result := Except DocumentError (List Goal × Reading)

def absent (s : Reading) (goals : List Goal) : Result :=
  .ok (goals, s.put .empty)

/-- An entry: a node unless one of some marks comes next. -/
def entry (s : Reading) (marks : List Mark) (node : Goal) (goals : List Goal) : Result :=
  if s.isAt marks then absent s goals else .ok (node :: goals, s)

/-- The anchor and the handle of the tag before a node, each once at most, in any order. -/
def properties (s : Reading) : Option String × Option String × Reading :=
  match s.marks with
  | .anchor name :: .tag handle :: marks => (some name, some handle, { s with marks })
  | .tag handle :: .anchor name :: marks => (some name, some handle, { s with marks })
  | .anchor name :: marks => (some name, none, { s with marks })
  | .tag handle :: marks => (none, some handle, { s with marks })
  | _ => (none, none, s)

def content (inBlock loose : Bool) (anchor? : Option String) (tagged : Bool) (s : Reading) : Result :=
  let collection (frame : Frame) (goal : Goal) (s : Reading) : Result :=
    .ok ([goal], (s.setAnchor anchor? none).openFrame frame)
  match s.marks with
  | .scalar text :: _ => .ok ([], (s.setAnchor anchor? (some text)).skip.put (.text text))
  | .flowListStart :: _ => collection (.list []) (.flowList true) s.skip
  | .flowMapStart :: _ => collection (.map [] none) (.flowMap true) s.skip
  | mark :: _ =>
    if mark = .dash && loose then collection (.list []) .looseList s
    else if mark = .openList && inBlock then collection (.list []) .blockList s.skip
    else if mark = .openMap && inBlock then collection (.map [] none) .blockMap s.skip
    else empty s
  | [] => empty s
where
  /-- Only an anchor or a tag makes a node of nothing. -/
  empty (s : Reading) : Result :=
    if anchor?.isSome || tagged then absent (s.setAnchor anchor? (some "")) [] else .error .malformed

def nodeStep (inBlock loose : Bool) (s : Reading) : Result :=
  match s.marks with
  | .alias name :: _ =>
    match s.anchors.lookup name with
    | some number => .ok ([], s.skip.put (.alias number))
    | none => .error .malformed
  | _ =>
    let (anchor?, handle?, s) := properties s
    if handle?.all fun handle => handle = "" || s.handles.contains handle then
      content inBlock loose anchor? handle?.isSome s
    else .error .malformed

/-- Reads an entry of a flow collection behind the comma before it, if it has to have one. -/
def behindComma (s : Reading) (first : Bool) (k : Reading → Result) : Result :=
  if first then k s
  else if s.isAt [.comma] then k s.skip
  else .error .malformed

def step (s : Reading) : Goal → Result
  | node inBlock loose => nodeStep inBlock loose s
  | blockList =>
    if s.isAt [.dash] then entry s.skip [.dash, .close] (.node true false) [blockList]
    else if s.isAt [.close] then .ok ([], s.skip.closeFrame)
    else .error .malformed
  | looseList =>
    if s.isAt [.dash] then entry s.skip [.dash, .key, .value, .close] (.node true false) [looseList]
    else .ok ([], s.closeFrame)
  | blockMap =>
    if s.isAt [.key] then entry s.skip [.key, .value, .close] (.node true true) [blockValue]
    else if s.isAt [.close] then .ok ([], s.skip.closeFrame)
    else .error .malformed
  | blockValue =>
    if s.isAt [.value] then entry s.skip [.key, .value, .close] (.node true true) [blockMap]
    else absent s [blockMap]
  | flowList first =>
    if s.isAt [.flowListEnd] then .ok ([], s.skip.closeFrame)
    else
      behindComma s first fun s =>
        if s.isAt [.key] then .ok ([pairKey, flowList false], s.skip.openFrame (.map [] none))
        else if s.isAt [.flowListEnd] then .ok ([], s.skip.closeFrame)
        else .ok ([.node false false, flowList false], s)
  | pairKey =>
    -- A pair without a key loses the mark behind it.
    if s.isAt [.value, .comma, .flowListEnd] then absent s.skip [pairValue]
    else .ok ([.node false false, pairValue], s)
  | pairValue =>
    if s.isAt [.value] then entry s.skip [.comma, .flowListEnd] (.node false false) [pairEnd]
    else absent s [pairEnd]
  | pairEnd => .ok ([], s.closeFrame)
  | flowMap first =>
    if s.isAt [.flowMapEnd] then .ok ([], s.skip.closeFrame)
    else
      behindComma s first fun s =>
        if s.isAt [.key] then
          entry s.skip [.value, .comma, .flowMapEnd] (.node false false) [flowValue]
        else if s.isAt [.flowMapEnd] then .ok ([], s.skip.closeFrame)
        else .ok ([.node false false, noValue], s)
  | flowValue =>
    if s.isAt [.value] then entry s.skip [.comma, .flowMapEnd] (.node false false) [flowMap false]
    else absent s [flowMap false]
  | noValue => absent s [flowMap false]

def run : Nat → List Goal → Reading → Except DocumentError Reading
  | _, [], s => .ok s
  | 0, _ :: _, _ => .error .malformed
  | n + 1, goal :: goals, s => do
    let (more, s) ← step s goal
    run n (more ++ goals) s

end Goal

/-! ### Documents -/

/-- Reads the directives before a document; tells whether one stated the version. -/
def directives : List Mark → Bool → List String → Except DocumentError (List String × List Mark)
  | .version major minor :: marks, versioned, handles =>
    if versioned || major ≠ 1 || (minor ≠ 1 && minor ≠ 2) then .error .malformed
    else directives marks true handles
  | .tagHandle handle :: marks, versioned, handles =>
    if handles.contains handle then .error .malformed else directives marks versioned (handle :: handles)
  | marks, _, handles => .ok (handles, marks)

/-- Reads what stands behind a document: nothing but marks that end it. -/
def ending (marks : List Mark) : Except DocumentError Unit :=
  match marks.dropWhile (· = .documentEnd) with
  | [] => .ok ()
  | .documentStart :: _ => .error .severalDocuments
  | _ => .error .malformed

/-- Reads the value of a document, and what stands behind it. -/
def content (marks : List Mark) (handles : List String) : Except DocumentError Document := do
  let s ← Goal.run (8 * marks.length + 8) [.node true false] { marks, handles := handles ++ ["!", "!!"] }
  ending s.marks
  return s.document

/-- Tells whether a mark can stand at the start of a document only, or behind one. -/
def Mark.isOutside : Mark → Bool
  | version .. | tagHandle .. | documentStart | documentEnd => true
  | _ => false

def Document.ofMarks (marks : List Mark) : Except DocumentError Document := do
  match marks with
  | [] => return {}
  | mark :: _ =>
    if mark.isOutside && mark ≠ .documentEnd then
      let (handles, marks) ← directives marks false []
      match marks with
      | .documentStart :: marks =>
        if marks.head?.all Mark.isOutside then
          ending marks
          return {}
        else content marks handles
      | _ => .error .malformed
    else content marks []

def Document.read (text : String) : Except DocumentError Document := do
  ofMarks (← Mark.ofText text)

end JackToVm.Config
