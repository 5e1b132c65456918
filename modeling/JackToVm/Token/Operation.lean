import JackToVm.Token.Cursor

/-!
The operations of a cursor as data. A query only asks what the cursor shows; the others may read on.
-/

namespace JackToVm

/-- What an operation gives back when it does not fail. -/
inductive Value where
  | unit
  | flag (value : Bool)
  | span (span : Span)
  | error (error : TokenError)
  | token (token : Token)
  | lexemeClass (lexemeClass : LexemeClass)
  | keyword (word : Keyword)
  | symbol (symbol : Symbol)
  | text (text : String)
  | integer (value : Nat)
  | binaryOp (op? : Option BinaryOp)
  | unaryOp (op? : Option UnaryOp)
deriving DecidableEq, Repr, Inhabited

abbrev Answer := Except TokenError Value

/-- A question about what a cursor shows. -/
inductive Query where
  | current
  | span
  | lexemeClass
  | mismatch (expected : Expected)
  | keyword
  | symbol
  | identifier
  | integer
  | string
  | binaryOp
  | unaryOp
  | isBinaryOp
  | isUnaryOp
  | isAt (lexeme : Lexeme)
deriving DecidableEq, Repr, Inhabited

def Query.answer (v : Showing) : Query → Answer
  | current => v.current.map .token
  | span => .ok (.span v.span)
  | lexemeClass => v.lexemeClass.map .lexemeClass
  | mismatch expected => .ok (.error (v.mismatch expected))
  | keyword => v.keyword.map .keyword
  | symbol => v.symbol.map .symbol
  | identifier => v.identifier.map .text
  | integer => v.integer.map .integer
  | string => v.string.map .text
  | binaryOp => v.binaryOp?.map .binaryOp
  | unaryOp => v.unaryOp?.map .unaryOp
  | isBinaryOp => v.binaryOp?.map fun op? => .flag op?.isSome
  | isUnaryOp => v.unaryOp?.map fun op? => .flag op?.isSome
  | isAt lexeme => .ok (.flag (v.isAt lexeme))

inductive Operation where
  | ask (query : Query)
  | hasMore
  | advance
  | consumeSymbol (symbol : Symbol)
  | consumeKeyword (word : Keyword)
  | consumeIdentifier
deriving DecidableEq, Repr, Inhabited

namespace Cursor

def apply (c : Cursor) : Operation → Answer × Cursor
  | .ask query => (query.answer c.toShowing, c)
  | .hasMore => c.hasMore.map (.ok <| .flag ·) id
  | .advance => c.advance.map (·.map fun _ => .unit) id
  | .consumeSymbol s => (c.consumeSymbol s).map (·.map fun _ => .unit) id
  | .consumeKeyword word => (c.consumeKeyword word).map (·.map fun _ => .unit) id
  | .consumeIdentifier => c.consumeIdentifier.map (·.map .text) id

/-- The cursor behind some operations. -/
def after (c : Cursor) (ops : List Operation) : Cursor :=
  ops.foldl (fun c op => (c.apply op).2) c

/-- What the operations give back, one after the other. -/
def answers (c : Cursor) : List Operation → List Answer
  | [] => []
  | op :: ops => (c.apply op).1 :: (c.apply op).2.answers ops

end Cursor

end JackToVm
