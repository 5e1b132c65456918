import JackToVm.Token.Expected

/-!
A cursor over a source. It shows one current token, none at first, and moves on by one item at a time; it never goes
back. An error item is reported once and leaves the current token as it was. The text is read as the cursor moves;
only the question whether an item follows reads one item ahead.
-/

namespace JackToVm

/-! ### What a cursor shows -/

/-- The current token, none at first, and the place where the source ends. -/
structure Showing where
  finish : Span
  current? : Option Token := none
deriving DecidableEq, Repr, Inhabited

namespace Showing

def current (v : Showing) : Except TokenError Token :=
  match v.current? with
  | some token => .ok token
  | none => .error (.endOfSource v.finish)

/-- The place of the current token, or the end of the source before the first one. -/
def span (v : Showing) : Span :=
  match v.current? with
  | some token => token.span
  | none => v.finish

def lexemeClass (v : Showing) : Except TokenError LexemeClass :=
  v.current.map (·.lexeme.lexemeClass)

/-- The error that reports the current token as unexpected. -/
def mismatch (v : Showing) (expected : Expected) : TokenError :=
  match v.current? with
  | some token => .mismatch expected token
  | none => .endOfSource v.finish

/-! ### What the current token is -/

/-- What the current token is, when it is of the wanted class. -/
def extract {α : Type} (v : Showing) (wanted : LexemeClass) (view : Token → Option α) :
    Except TokenError α := do
  match view (← v.current) with
  | some a => .ok a
  | none => .error (v.mismatch (.lexemeClass wanted))

def keyword (v : Showing) : Except TokenError Keyword :=
  v.extract .keyword Token.keyword?

def symbol (v : Showing) : Except TokenError Symbol :=
  v.extract .symbol Token.symbol?

def identifier (v : Showing) : Except TokenError String :=
  v.extract .identifier Token.identifier?

def integer (v : Showing) : Except TokenError Nat :=
  v.extract .integer Token.integer?

def string (v : Showing) : Except TokenError String :=
  v.extract .string Token.string?

/-- The infix operator that the current symbol stands for, if it stands for one. -/
def binaryOp? (v : Showing) : Except TokenError (Option BinaryOp) :=
  v.symbol.map Symbol.binaryOp?

/-- The operator that the current symbol stands for in front of an operand, if it stands for one. -/
def unaryOp? (v : Showing) : Except TokenError (Option UnaryOp) :=
  v.symbol.map Symbol.unaryOp?

/-- Tells whether the current token is a given lexeme. -/
def isAt (v : Showing) (lexeme : Lexeme) : Bool :=
  match v.current? with
  | some token => token.lexeme = lexeme
  | none => false

end Showing

/-! ### Reading -/

/-- Reads the first item off a text that starts at a place. Gives the place and the text behind it too. -/
def Item.read (place : Position) : List Char → Option Item × Position × List Char
  | [] => (none, place, [])
  | c :: rest =>
    let piece := (Piece.cut c rest).1
    let behind := place.after piece.text
    match ofPiece? piece place behind with
    | some item => (some item, behind, (Piece.cut c rest).2)
    | none => read behind (Piece.cut c rest).2
termination_by text => text.length
decreasing_by exact Piece.cut_snd_length_lt c rest

/-- A cursor shows a token, and has the text behind its items unread, from `place` on. When it has looked ahead it
keeps what it saw: the next item, or that there is none. -/
structure Cursor extends Showing where
  unread : List Char
  place : Position := {}
  ahead? : Option (Option Item) := none
deriving Repr, Inhabited

namespace Cursor

/-- The cursor before the first item of a source. -/
def ofSource (source : String) : Cursor :=
  { finish := .atEnd source, unread := source.toList }

/-- Reads the next item off the text. -/
def read (c : Cursor) : Option Item × Cursor :=
  let (item?, place, unread) := Item.read c.place c.unread
  (item?, { c with place, unread })

/-- The next item. What was seen ahead is used first. -/
def next (c : Cursor) : Option Item × Cursor :=
  match c.ahead? with
  | some item? => (item?, { c with ahead? := none })
  | none => c.read

/-- Tells whether an item follows the current token. An error counts. -/
def hasMore (c : Cursor) : Bool × Cursor :=
  match c.ahead? with
  | some item? => (item?.isSome, c)
  | none =>
    let (item?, c) := c.read
    (item?.isSome, { c with ahead? := some item? })

/-- Moves on to the next item. At the end of the source the current token stays. -/
def advance (c : Cursor) : Except TokenError Unit × Cursor :=
  match c.next with
  | (some (.ok token), c) => (.ok (), { c with current? := some token })
  | (some (.error e), c) => (.error (.lexical e), c)
  | (none, c) => (.error (.endOfSource c.finish), c)

/-! ### Moving past a wanted token -/

def consume (c : Cursor) (wanted : Lexeme) (expected : Expected) : Except TokenError Unit × Cursor :=
  if c.isAt wanted then c.advance else (.error (c.mismatch expected), c)

def consumeSymbol (c : Cursor) (s : Symbol) : Except TokenError Unit × Cursor :=
  c.consume (.symbol s) (.symbol s)

def consumeKeyword (c : Cursor) (word : Keyword) : Except TokenError Unit × Cursor :=
  c.consume (.keyword word) (.keyword word)

def consumeIdentifier (c : Cursor) : Except TokenError String × Cursor :=
  match c.identifier with
  | .ok name =>
    let (moved, c) := c.advance
    (moved.map fun _ => name, c)
  | .error e => (.error e, c)

end Cursor

end JackToVm
