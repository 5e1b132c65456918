import JackToVm.Token.Piece

/-!
The items of a source text: its tokens, and an error for each stretch that is no lexeme. Reading goes on
behind an error, and a gap leaves no item.
-/

namespace JackToVm

/-- A stretch of source that is no lexeme. -/
structure LexError where
  cause : LexCause
  span : Span
deriving DecidableEq, Repr, Inhabited

namespace LexError

def message (e : LexError) : String :=
  e.cause.message

end LexError

abbrev Item := Except LexError Token

namespace Item

def span : Item → Span
  | .ok token => token.span
  | .error e => e.span

/-- The item of a piece that lies between two places. A gap has none. -/
def ofPiece? (piece : Piece) (place behind : Position) : Option Item :=
  match piece.reading with
  | .gap => none
  | .lexeme lexeme => some (.ok { lexeme, span := .between place behind })
  | .fault cause => some (.error { cause, span := .between place behind })

/-- Appends the items of pieces of which the first starts at a place. -/
def locateOnto (done : Array Item) (place : Position) : List Piece → Array Item
  | [] => done
  | piece :: pieces =>
    let behind := place.after piece.text
    locateOnto (done ++ (ofPiece? piece place behind).toList) behind pieces

/-- The items of pieces of which the first starts at a place. -/
def locate (place : Position) (pieces : List Piece) : List Item :=
  (locateOnto #[] place pieces).toList

def ofSource (source : String) : List Item :=
  locate {} (Piece.split source.toList)

/-! ### Piece by piece -/

theorem toList_locateOnto (done : Array Item) (place : Position) (pieces : List Piece) :
    (locateOnto done place pieces).toList = done.toList ++ locate place pieces := by
  unfold locate
  induction pieces generalizing done place with
  | nil => simp [locateOnto]
  | cons piece pieces ih =>
    rw [locateOnto, locateOnto, ih, ih (#[] ++ _)]
    simp

@[simp] theorem locate_nil (place : Position) : locate place [] = [] := rfl

theorem locate_cons (place : Position) (piece : Piece) (pieces : List Piece) :
    locate place (piece :: pieces) =
      (ofPiece? piece place (place.after piece.text)).toList ++
        locate (place.after piece.text) pieces := by
  rw [locate, locateOnto, toList_locateOnto]
  simp

end Item

end JackToVm
