/-!
Places in the text of a configuration document. Lines end in a newline or in one of the two Unicode
separators of lines; the other ends of lines are made newlines before a text is read. A place counts the
bytes, the lines and the columns before it.
-/

namespace JackToVm.Config

/-- Why a document cannot be used. -/
inductive DocumentError where
  | malformed
  | severalDocuments
deriving DecidableEq, Repr, Inhabited

/-! ### Characters -/

/-- Tells whether a character is a space or a tab. -/
def isSpace (c : Char) : Bool :=
  c = ' ' || c = '\t'

def isBreak (c : Char) : Bool :=
  c = '\n' || c = '\u2028' || c = '\u2029'

def isSeparator (c : Char) : Bool :=
  isSpace c || isBreak c

/-- Tells whether a character opens, parts or closes flow collections. -/
def isFlowMark (c : Char) : Bool :=
  c = ',' || c = '[' || c = ']' || c = '\x7b' || c = '\x7d'

/-- Tells whether a character may stand in the name of an anchor or of a directive. -/
def isNamePart (c : Char) : Bool :=
  c.isAlphanum || c = '-' || c = '_'

def hexValue? (c : Char) : Option Nat :=
  if '0' ≤ c && c ≤ '9' then some (c.toNat - '0'.toNat)
  else if 'a' ≤ c && c ≤ 'f' then some (c.toNat - 'a'.toNat + 10)
  else if 'A' ≤ c && c ≤ 'F' then some (c.toNat - 'A'.toNat + 10)
  else none

def isAllowed (c : Char) : Bool :=
  let code := c.toNat
  code = 0x9 || code = 0xA || code = 0xD || (0x20 ≤ code && code ≤ 0x7E) || code = 0x85 ||
    (0xA0 ≤ code && code ≠ 0xFFFE && code ≠ 0xFFFF)

/-- Adds a text with newlines for its other ends of lines to a text that stands backwards. -/
def normalLinesOnto (done : List Char) : List Char → List Char
  | [] => done
  | '\r' :: '\n' :: rest => normalLinesOnto ('\n' :: done) rest
  | c :: rest => normalLinesOnto ((if c = '\r' || c = '\u0085' then '\n' else c) :: done) rest

/-- A text with newlines for its other ends of lines. -/
def normalLines (text : List Char) : List Char :=
  (normalLinesOnto [] text).reverse

/-! ### What a text starts with -/

/-- Tells whether a separator or the end of the document comes next. -/
def atSeparator : List Char → Bool
  | [] => true
  | c :: _ => isSeparator c

/-- Tells whether a text starts with the mark before a document. -/
def startsDocument : List Char → Bool
  | '-' :: '-' :: '-' :: rest => atSeparator rest
  | _ => false

/-- Tells whether a text starts with the mark behind a document. -/
def endsDocument : List Char → Bool
  | '.' :: '.' :: '.' :: rest => atSeparator rest
  | _ => false

/-! ### Places -/

/-- The text that is still to be read, and the bytes, lines and columns before it. -/
structure Place where
  rest : List Char
  index : Nat := 0
  line : Nat := 0
  column : Nat := 0
deriving Repr, Inhabited

namespace Place

def next (p : Place) : Place :=
  match p.rest with
  | [] => p
  | c :: rest =>
    if isBreak c then { rest, index := p.index + c.utf8Size, line := p.line + 1, column := 0 }
    else { rest, index := p.index + c.utf8Size, line := p.line, column := p.column + 1 }

def skip (p : Place) (n : Nat) : Place :=
  (p.rest.take n).foldl (fun p _ => p.next) p

def run (p : Place) (kind : Char → Bool) : List Char :=
  p.rest.takeWhile kind

def skipRun (p : Place) (kind : Char → Bool) : Place :=
  p.skip (p.run kind).length

/-- Tells whether the next character is of a kind. -/
def isAt (p : Place) (kind : Char → Bool) : Bool :=
  p.rest.head?.any kind

def atMark (p : Place) : Bool :=
  p.column = 0 && (startsDocument p.rest || endsDocument p.rest)

/-- The place of the next word or mark, and whether a key may start there. Comments are passed over, and so
is a byte order mark at the start of a line. Where a key may start in a block, a tab is no blank; a new line
of a block lets a key start. -/
def nextWord (flow : Bool) : Nat → Bool → Place → Place × Bool
  | 0, keyAllowed, p => (p, keyAllowed)
  | n + 1, keyAllowed, p =>
    let p := if p.column = 0 && p.isAt (· = '\ufeff') then p.next else p
    let p := p.skipRun fun c => c = ' ' || ((flow || !keyAllowed) && c = '\t')
    let p := if p.isAt (· = '#') then p.skipRun (!isBreak ·) else p
    if p.isAt isBreak then nextWord flow n (keyAllowed || !flow) p.next else (p, keyAllowed)

end Place

end JackToVm.Config
