import JackToVm.Token.Expected

/-!
Why a class does not compile. The first error ends the pass.
-/

namespace JackToVm

/-- Why a class does not compile. -/
inductive CompileError where
  /-- The source has no lexeme in a place. -/
  | lexical (error : LexError)
  /-- A token does not fit the grammar. -/
  | unexpected (expected : Expected) (found : Token)
  /-- A name is used as a variable and is none. -/
  | undefined (name : String) (span : Span)
  /-- The source ends inside the class. -/
  | endOfInput (span : Span)
  /-- The output could not be written. -/
  | sinkFull
deriving DecidableEq, Repr, Inhabited

namespace CompileError

/-- What the outside says when the output could not be written. -/
def sinkMessage : String := "sink full"

def message : CompileError → String
  | lexical e => e.message
  | unexpected expected found =>
    s!"syntax error: expected {expected.describe}, found {found.lexeme.describe}"
  | undefined name _ => s!"undefined symbol '{name}'"
  | endOfInput _ => "unexpected end of input"
  | sinkFull => s!"failed to write output: {sinkMessage}"

/-- The message of the error behind an error, if there is one. -/
def cause? : CompileError → Option String
  | lexical e => some e.message
  | sinkFull => some sinkMessage
  | _ => none

/-- The place that an error points to. The output has none. -/
def span? : CompileError → Option Span
  | lexical e => some e.span
  | unexpected _ found => some found.span
  | undefined _ span => some span
  | endOfInput span => some span
  | sinkFull => none

/-- The line and the column that an error points to. -/
def place? (e : CompileError) : Option (Nat × Nat) :=
  e.span?.map fun span => (span.line, span.column)

/-- The error that ends the pass when a wanted token is not there. -/
def ofTokenError : TokenError → CompileError
  | .mismatch expected found => unexpected expected found
  | .endOfSource span => endOfInput span
  | .lexical e => lexical e

end CompileError

end JackToVm
