import JackToVm.Token.Item

/-!
What a grammar rule wants to see, and the three ways a token can fall short of it: it is another one, it
is not there because the source has ended, or the source has no lexeme in its place.
-/

namespace JackToVm

/-- What is wanted at a place of the source. -/
inductive Expected where
  | lexemeClass (wanted : LexemeClass)
  | keyword (word : Keyword)
  | symbol (symbol : Symbol)
  /-- A construct of the grammar, such as a statement or a type. -/
  | construct (name : String)
  | endOfSource
deriving DecidableEq, Repr, Inhabited

namespace Expected

def describe : Expected → String
  | lexemeClass wanted => wanted.text
  | keyword word => (Lexeme.keyword word).describe
  | symbol s => (Lexeme.symbol s).describe
  | construct name => name
  | endOfSource => "end of source"

end Expected

/-- Why a wanted token is not there. -/
inductive TokenError where
  | mismatch (expected : Expected) (found : Token)
  | endOfSource (span : Span)
  | lexical (error : LexError)
deriving DecidableEq, Repr, Inhabited

namespace TokenError

def message : TokenError → String
  | mismatch expected found =>
    s!"encountered unexpected {found.lexeme.describe}, expected {expected.describe}"
  | endOfSource _ => "unexpected end of source code"
  | lexical e => e.message

def span : TokenError → Span
  | mismatch _ found => found.span
  | endOfSource span => span
  | lexical e => e.span

end TokenError

namespace Token

def keyword? (t : Token) : Option Keyword :=
  match t.lexeme with
  | .keyword word => some word
  | _ => none

def symbol? (t : Token) : Option Symbol :=
  match t.lexeme with
  | .symbol s => some s
  | _ => none

def identifier? (t : Token) : Option String :=
  match t.lexeme with
  | .identifier name => some name
  | _ => none

def integer? (t : Token) : Option Nat :=
  match t.lexeme with
  | .integer value => some value
  | _ => none

def string? (t : Token) : Option String :=
  match t.lexeme with
  | .string text => some text
  | _ => none

end Token

end JackToVm
