import JackToVm.Token.Item

/-!
The token table: a line for each token with its offset, its line and column, the token and its source
text, in columns. The table ends with the message of the first error.
-/

namespace JackToVm

namespace Text

/-- Fills a text up with blanks on the left. -/
def padLeft (width : Nat) (text : String) : String :=
  "".pushn ' ' (width - text.length) ++ text

/-- Fills a text up with blanks on the right. -/
def padRight (width : Nat) (text : String) : String :=
  text.pushn ' ' (width - text.length)

end Text

namespace Token

def tableRow (source : String) (t : Token) : String :=
  let offset := Text.padLeft 6 (toString t.span.start)
  let place := Text.padRight 8 s!"{t.span.line}:{t.span.column}"
  let shown := Text.padRight 20 t.lexeme.inspect
  let fragment := t.span.fragment source
  s!"{offset} | {place} | {shown} | {fragment}"

end Token

namespace Item

/-- Adds the lines of items to a table, up to the first error. -/
def tableOnto (source : String) (lines : String) : List Item → String
  | [] => lines
  | .ok token :: items => tableOnto source (lines ++ token.tableRow source ++ "\n") items
  | .error e :: _ => lines ++ e.message ++ "\n"

def table (source : String) : String :=
  let bytes := s!"Source Byte Count: {source.utf8ByteSize}\n"
  let head := "offset | line:col | token                | fragment\n"
  tableOnto source (bytes ++ head) (ofSource source)

end Item

end JackToVm
