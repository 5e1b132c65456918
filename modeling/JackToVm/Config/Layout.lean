import JackToVm.Config.Scalar

/-!
The marks of a configuration document. Blocks have no marks of their own in a text: a block opens where an
entry stands right of the margin, and closes where a line starts left of its own margin. Whether a scalar or
a flow collection is a key is only told by the colon behind it, so each of them is remembered as a candidate
until a line ends or too many bytes have passed.
-/

namespace JackToVm.Config

/-- A mark of a document. -/
inductive Mark where
  /-- The version of the format that a document uses. -/
  | version (major minor : Nat)
  /-- The declaration of a handle for tags. -/
  | tagHandle (handle : String)
  | documentStart
  | documentEnd
  /-- The start of a list in block form. -/
  | openList
  /-- The start of a map in block form. -/
  | openMap
  /-- The end of a list or map in block form. -/
  | close
  | flowListStart
  | flowListEnd
  | flowMapStart
  | flowMapEnd
  | comma
  | dash
  | key
  | value
  | alias (name : String)
  | anchor (name : String)
  | tag (handle : String)
  | scalar (text : String)
deriving DecidableEq, Repr, Inhabited

/-- What may turn out to be a key: the place where it starts and the number of marks before it. -/
structure Candidate where
  index : Nat
  line : Nat
  column : Nat
  marks : Nat
  /-- Whether nothing but a key can stand there. -/
  required : Bool
deriving Repr, Inhabited

/-- The most bytes from the start of a key to its colon. -/
def maxKeySize : Nat := 1024

/-- How far a document has been cut into marks. -/
structure Layout where
  place : Place
  /-- A bound for the characters that are left. -/
  fuel : Nat
  /-- The marks so far, the last one first. -/
  marks : List Mark := []
  count : Nat := 0
  /-- Words of the innermost block start left of this column only to end it; 0 outside all blocks. -/
  margin : Nat := 0
  /-- The margins of the blocks around it. -/
  margins : List Nat := []
  /-- Candidates for a key, one for each flow collection that is open, and one for the blocks. -/
  candidates : List (Option Candidate) := [none]
  keyAllowed : Bool := true
deriving Repr, Inhabited

namespace Layout

/-- A layout that grows, or the reason why it cannot. -/
abbrev Result := Except DocumentError Layout

def flow (s : Layout) : Bool :=
  !s.candidates.tail.isEmpty

def push (s : Layout) (mark : Mark) : Layout :=
  { s with marks := mark :: s.marks, count := s.count + 1 }

def insert (s : Layout) (n : Nat) (mark : Mark) : Layout :=
  { s with marks := s.marks.insertIdx (s.count - n) mark, count := s.count + 1 }

/-- Adds a mark of some characters and passes over these. -/
def take (s : Layout) (n : Nat) (mark : Mark) : Layout :=
  { s.push mark with place := s.place.skip n }

/-! ### Blocks -/

/-- Closes the blocks whose margin is right of a bound. -/
def closeBlocks (s : Layout) (bound : Nat) : Layout :=
  if s.flow then s else go s.margins s
where
  /-- Goes on with the blocks around. -/
  go : List Nat → Layout → Layout
    | [], s => s
    | margin :: margins, s =>
      if bound < s.margin then go margins { s.push .close with margin, margins } else s

/-- Opens a block at a column unless there is one. Its mark goes behind the first `n` marks. -/
def openBlock (s : Layout) (column n : Nat) (mark : Mark) : Layout :=
  if s.flow || column < s.margin then s
  else { s.insert n mark with margin := column + 1, margins := s.margin :: s.margins }

/-! ### Candidates -/

def candidate? (s : Layout) : Option Candidate :=
  s.candidates.head?.join

def setCandidate (s : Layout) (candidate? : Option Candidate) : Layout :=
  { s with candidates := candidate? :: s.candidates.tail }

/-- Gives up the candidate. It must not be required. -/
def dropCandidate (s : Layout) : Result :=
  match s.candidate? with
  | some c => if c.required then .error .malformed else .ok (s.setCandidate none)
  | none => .ok s

/-- Gives up a candidate that can be no key any more. -/
def dropStale (s : Layout) : Result :=
  match s.candidate? with
  | some c =>
    if c.line < s.place.line || c.index + maxKeySize < s.place.index then s.dropCandidate else .ok s
  | none => .ok s

/-- Remembers what starts here as a candidate, if a key may start here. -/
def remember (s : Layout) : Result := do
  if s.keyAllowed then
    let s ← s.dropCandidate
    return s.setCandidate (some {
      index := s.place.index
      line := s.place.line
      column := s.place.column
      marks := s.count
      required := !s.flow && s.margin = s.place.column + 1 })
  else return s

/-! ### Marks of one or three characters -/

def documentMark (s : Layout) (mark : Mark) : Result := do
  let s ← (s.closeBlocks 0).dropCandidate
  return { s.take 3 mark with keyAllowed := false }

/-- The start of a flow collection, which may be a key itself. -/
def flowStart (s : Layout) (mark : Mark) : Result := do
  let s ← s.remember
  return { s.take 1 mark with candidates := none :: s.candidates, keyAllowed := true }

def flowEnd (s : Layout) (mark : Mark) : Result := do
  let s ← s.dropCandidate
  let candidates := if s.flow then s.candidates.tail else s.candidates
  return { s.take 1 mark with candidates, keyAllowed := false }

def comma (s : Layout) : Result := do
  let s ← s.dropCandidate
  return { s.take 1 .comma with keyAllowed := true }

def dash (s : Layout) : Result := do
  if !s.flow && !s.keyAllowed then .error .malformed
  else
    let s ← (s.openBlock s.place.column s.count .openList).dropCandidate
    return { s.take 1 .dash with keyAllowed := true }

def keyMark (s : Layout) : Result := do
  if !s.flow && !s.keyAllowed then .error .malformed
  else
    let s ← (s.openBlock s.place.column s.count .openMap).dropCandidate
    return { s.take 1 .key with keyAllowed := !s.flow }

def valueMark (s : Layout) : Result :=
  match s.candidate? with
  | some c =>
    let s := (s.insert c.marks .key).openBlock c.column c.marks .openMap
    .ok { (s.setCandidate none).take 1 .value with keyAllowed := false }
  | none =>
    if !s.flow && !s.keyAllowed then .error .malformed
    else
      let s := s.openBlock s.place.column s.count .openMap
      .ok { s.take 1 .value with keyAllowed := !s.flow }

/-! ### Names, tags and directives -/

def named (s : Layout) (mark : String → Mark) : Result := do
  let s ← s.remember
  let place := s.place.next
  let name := place.run isNamePart
  let place := place.skip name.length
  let ends := atSeparator place.rest || place.isAt fun c => "?:,]\x7d%@`".toList.contains c
  if name = [] || !ends then .error .malformed
  else return { s.push (mark (String.ofList name)) with place, keyAllowed := false }

/-- How many bytes a character has in UTF-8 whose first byte is given. -/
def sequenceSize? (byte : Nat) : Option Nat :=
  if byte < 0x80 then some 1
  else if byte < 0xC0 then none
  else if byte < 0xE0 then some 2
  else if byte < 0xF0 then some 3
  else if byte < 0xF8 then some 4
  else none

/-- The bytes at the start of a text that are written as a percent sign and two digits. -/
def escapedBytes : Nat → List Char → Option (List Nat)
  | 0, _ => some []
  | n + 1, '%' :: a :: b :: rest => do
    return (16 * (← hexValue? a) + (← hexValue? b)) :: (← escapedBytes n rest)
  | _ + 1, _ => none

/-- The number of characters of the escaped bytes of one character at the start of a text. -/
def escapedSize? (text : List Char) : Option Nat := do
  let size ← sequenceSize? (← (← escapedBytes 1 text).head?)
  let bytes ← escapedBytes size text
  if bytes.tail.all fun byte => 0x80 ≤ byte && byte < 0xC0 then some (3 * size) else none

/-- Tells whether a character may stand in a tag as it is. -/
def isTagPart (wide : Bool) (c : Char) : Bool :=
  isNamePart c || ";/?:@&=+$.!~*'()".toList.contains c || (wide && (c = ',' || c = '[' || c = ']'))

/-- The number of characters of a tag at the start of a text. -/
def tagSize? (wide : Bool) : Nat → Nat → List Char → Option Nat
  | 0, size, _ => some size
  | n + 1, size, text =>
    match text with
    | '%' :: _ => do
      let escaped ← escapedSize? text
      tagSize? wide n (size + escaped) (text.drop escaped)
    | c :: rest => if isTagPart wide c then tagSize? wide n (size + 1) rest else some size
    | [] => some size

/-- The handle of a tag at the start of a text. -/
def handle (text : List Char) : List Char :=
  let name := (text.drop 1).takeWhile isNamePart
  match text.drop (name.length + 1) with
  | '!' :: _ => '!' :: name ++ ['!']
  | _ => '!' :: name

/-- The handle of the tag at a place and the place behind it. A tag in angle brackets, and a lone mark, have
no handle. -/
def readTag? (fuel : Nat) (p : Place) : Option (String × Place) :=
  if (p.rest.drop 1).head? = some '<' then do
    let inside := p.skip 2
    let size ← tagSize? true fuel 0 inside.rest
    let behind := inside.skip size
    if size = 0 || !behind.isAt (· = '>') then none else some ("", behind.next)
  else do
    let handle := handle p.rest
    if 1 < handle.length && handle.getLast? = some '!' then
      let inside := p.skip handle.length
      let size ← tagSize? false fuel 0 inside.rest
      if size = 0 then none else some (String.ofList handle, inside.skip size)
    else
      let inside := p.skip handle.length
      let size ← tagSize? false fuel 0 inside.rest
      let size := handle.length + size
      some (if size = 1 then "" else "!", p.skip size)

def tag (s : Layout) : Result := do
  let s ← s.remember
  match readTag? s.fuel s.place with
  | some (handle, place) =>
    if atSeparator place.rest || (s.flow && place.isAt (· = ',')) then
      return { s.push (.tag handle) with place, keyAllowed := false }
    else .error .malformed
  | none => .error .malformed

/-- The number of up to nine digits at a place, and the place behind it. -/
def number? (p : Place) : Option (Nat × Place) :=
  let digits := p.run Char.isDigit
  if digits = [] || 9 < digits.length then none
  else some (digits.foldl (fun n d => 10 * n + (d.toNat - '0'.toNat)) 0, p.skip digits.length)

/-- The mark of the directive at a place and the place behind it. -/
def readDirective? (fuel : Nat) (p : Place) : Option (Mark × Place) := do
  let name := p.next.run isNamePart
  let p := p.skip (name.length + 1)
  if !atSeparator p.rest then none
  else
    let p := p.skipRun isSpace
    match String.ofList name with
    | "YAML" =>
      let (major, p) ← number? p
      if !p.isAt (· = '.') then none
      else
        let (minor, p) ← number? p.next
        return (.version major minor, ← lineEnd? p)
    | "TAG" =>
      if !p.isAt (· = '!') then none
      else
        let handle := handle p.rest
        let p := p.skip handle.length
        if (handle ≠ ['!'] && handle.getLast? ≠ some '!') || !p.isAt isSpace then none
        else
          let p := p.skipRun isSpace
          let size ← tagSize? true fuel 0 p.rest
          let p := p.skip size
          if size = 0 || !atSeparator p.rest then none
          else return (.tagHandle (String.ofList handle), ← lineEnd? p)
    | _ => none

def directive (s : Layout) : Result := do
  let s ← (s.closeBlocks 0).dropCandidate
  match readDirective? s.fuel s.place with
  | some (mark, place) => return { s.push mark with place, keyAllowed := false }
  | none => .error .malformed

/-! ### Scalars -/

def quotedScalar (s : Layout) (quote : Char) : Result := do
  let s ← s.remember
  match quoted quote s.fuel [] s.place.next with
  | some (text, place) => return { s.push (.scalar (String.ofList text)) with place, keyAllowed := false }
  | none => .error .malformed

def plainScalar (s : Layout) : Result := do
  let s ← s.remember
  match plain s.flow s.margin s.fuel [] [] false s.place with
  | some (text, broken, place) =>
    return { s.push (.scalar (String.ofList text)) with place, keyAllowed := broken }
  | none => .error .malformed

def blockScalar (s : Layout) (folded : Bool) : Result := do
  let s ← s.dropCandidate
  match block folded s.margin s.fuel s.place.next with
  | some (text, place) => return { s.push (.scalar (String.ofList text)) with place, keyAllowed := true }
  | none => .error .malformed

/-! ### Whole documents -/

def mark (s : Layout) (c : Char) (rest : List Char) : Result :=
  if c = '%' && s.place.column = 0 then s.directive
  else if s.place.column = 0 && startsDocument (c :: rest) then s.documentMark .documentStart
  else if s.place.column = 0 && endsDocument (c :: rest) then s.documentMark .documentEnd
  else if c = '[' then s.flowStart .flowListStart
  else if c = '\x7b' then s.flowStart .flowMapStart
  else if c = ']' then s.flowEnd .flowListEnd
  else if c = '\x7d' then s.flowEnd .flowMapEnd
  else if c = ',' then s.comma
  else if c = '-' && atSeparator rest then s.dash
  else if c = '?' && (s.flow || atSeparator rest) then s.keyMark
  else if c = ':' && (s.flow || atSeparator rest) then s.valueMark
  else if c = '*' then s.named .alias
  else if c = '&' then s.named .anchor
  else if c = '!' then s.tag
  else if c = '|' && !s.flow then s.blockScalar false
  else if c = '>' && !s.flow then s.blockScalar true
  else if c = '"' || c = '\x27' then s.quotedScalar c
  else if startsPlain s.flow (c :: rest) then s.plainScalar
  else .error .malformed

def finish : Nat → Layout → Except DocumentError (List Mark)
  | 0, _ => .error .malformed
  | n + 1, s => do
    let (place, keyAllowed) := s.place.nextWord s.flow s.fuel s.keyAllowed
    let s ← { s with place, keyAllowed }.dropStale
    let s := s.closeBlocks (place.column + 1)
    match place.rest with
    | [] =>
      let s ← (s.closeBlocks 0).dropCandidate
      return s.marks.reverse
    | c :: rest => finish n (← s.mark c rest)

end Layout

def Mark.ofText (text : String) : Except DocumentError (List Mark) :=
  let chars := text.toList
  if chars.all isAllowed then
    let rest := normalLines chars
    let fuel := rest.length + 2
    Layout.finish fuel { place := { rest }, fuel }
  else .error .malformed

end JackToVm.Config
