import JackToVm.Position
import JackToVm.Text.Quoted

/-!
Tokens of Jack: the reserved words, the symbols with the operators they stand for, and the five classes
of lexemes. Each has the text that messages show (`describe`) and the text of the token table
(`inspect`).
-/

namespace JackToVm

/-! ### Reserved words -/

/-- A reserved word. -/
inductive Keyword where
  | class_ | constructor_ | function | method | field | static | var | int | char | boolean | void
  | true_ | false_ | null | this | let_ | do_ | if_ | else_ | while_ | return_
deriving DecidableEq, Repr, Inhabited

namespace Keyword

def all : List Keyword :=
  [class_, constructor_, function, method, field, static, var, int, char, boolean, void,
   true_, false_, null, this, let_, do_, if_, else_, while_, return_]

def text : Keyword → String
  | class_ => "class"
  | constructor_ => "constructor"
  | function => "function"
  | method => "method"
  | field => "field"
  | static => "static"
  | var => "var"
  | int => "int"
  | char => "char"
  | boolean => "boolean"
  | void => "void"
  | true_ => "true"
  | false_ => "false"
  | null => "null"
  | this => "this"
  | let_ => "let"
  | do_ => "do"
  | if_ => "if"
  | else_ => "else"
  | while_ => "while"
  | return_ => "return"

def ofText? : String → Option Keyword
  | "class" => some class_
  | "constructor" => some constructor_
  | "function" => some function
  | "method" => some method
  | "field" => some field
  | "static" => some static
  | "var" => some var
  | "int" => some int
  | "char" => some char
  | "boolean" => some boolean
  | "void" => some void
  | "true" => some true_
  | "false" => some false_
  | "null" => some null
  | "this" => some this
  | "let" => some let_
  | "do" => some do_
  | "if" => some if_
  | "else" => some else_
  | "while" => some while_
  | "return" => some return_
  | _ => none

/-- The name of a reserved word in the token table. -/
def name (k : Keyword) : String :=
  k.text.capitalize

theorem mem_all (k : Keyword) : k ∈ all := by
  cases k <;> decide

@[simp] theorem ofText?_text (k : Keyword) : ofText? k.text = some k := by
  cases k <;> rfl

end Keyword

/-! ### Operators and symbols -/

/-- An infix operator. All of them bind alike. -/
inductive BinaryOp where
  | add | sub | mul | div | and | or | lt | gt | eq
deriving DecidableEq, Repr, Inhabited

/-- An operator in front of its operand. -/
inductive UnaryOp where
  | neg | not
deriving DecidableEq, Repr, Inhabited

/-- A symbol of one character. -/
inductive Symbol where
  | leftBrace | rightBrace | leftParen | rightParen | leftBracket | rightBracket
  | dot | comma | semicolon | plus | minus | star | slash | amp | pipe | less | greater | eq | tilde
deriving DecidableEq, Repr, Inhabited

namespace Symbol

def toChar : Symbol → Char
  | leftBrace => '{'
  | rightBrace => '}'
  | leftParen => '('
  | rightParen => ')'
  | leftBracket => '['
  | rightBracket => ']'
  | dot => '.'
  | comma => ','
  | semicolon => ';'
  | plus => '+'
  | minus => '-'
  | star => '*'
  | slash => '/'
  | amp => '&'
  | pipe => '|'
  | less => '<'
  | greater => '>'
  | eq => '='
  | tilde => '~'

def ofChar? : Char → Option Symbol
  | '{' => some leftBrace
  | '}' => some rightBrace
  | '(' => some leftParen
  | ')' => some rightParen
  | '[' => some leftBracket
  | ']' => some rightBracket
  | '.' => some dot
  | ',' => some comma
  | ';' => some semicolon
  | '+' => some plus
  | '-' => some minus
  | '*' => some star
  | '/' => some slash
  | '&' => some amp
  | '|' => some pipe
  | '<' => some less
  | '>' => some greater
  | '=' => some eq
  | '~' => some tilde
  | _ => none

/-- The name of a symbol in the token table. -/
def name : Symbol → String
  | leftBrace => "LeftBrace"
  | rightBrace => "RightBrace"
  | leftParen => "LeftParen"
  | rightParen => "RightParen"
  | leftBracket => "LeftBracket"
  | rightBracket => "RightBracket"
  | dot => "Dot"
  | comma => "Comma"
  | semicolon => "Semicolon"
  | plus => "Plus"
  | minus => "Minus"
  | star => "Star"
  | slash => "Slash"
  | amp => "Amp"
  | pipe => "Pipe"
  | less => "Less"
  | greater => "Greater"
  | eq => "Eq"
  | tilde => "Tilde"

def text (s : Symbol) : String :=
  s.toChar.toString

def binaryOp? : Symbol → Option BinaryOp
  | plus => some .add
  | minus => some .sub
  | star => some .mul
  | slash => some .div
  | amp => some .and
  | pipe => some .or
  | less => some .lt
  | greater => some .gt
  | eq => some .eq
  | _ => none

/-- The operator that a symbol stands for in front of an operand. -/
def unaryOp? : Symbol → Option UnaryOp
  | minus => some .neg
  | tilde => some .not
  | _ => none

@[simp] theorem ofChar?_toChar (s : Symbol) : ofChar? s.toChar = some s := by
  cases s <;> rfl

end Symbol

/-! ### Lexemes -/

/-- The class of a lexeme. -/
inductive LexemeClass where
  | keyword | symbol | identifier | integer | string
deriving DecidableEq, Repr, Inhabited

namespace LexemeClass

def text : LexemeClass → String
  | keyword => "keyword"
  | symbol => "symbol"
  | identifier => "identifier"
  | integer => "integer constant"
  | string => "string constant"

def ofText? : String → Option LexemeClass
  | "keyword" => some keyword
  | "symbol" => some symbol
  | "identifier" => some identifier
  | "integer constant" => some integer
  | "string constant" => some string
  | _ => none

@[simp] theorem ofText?_text (c : LexemeClass) : ofText? c.text = some c := by
  cases c <;> rfl

end LexemeClass

/-- The largest constant: integers, the codes of the characters of a string, and its length go no
further. -/
def maxConstant : Nat := 32767

/-- A classified lexeme. A string is held without its quotes. -/
inductive Lexeme where
  | keyword (word : Keyword)
  | symbol (symbol : Symbol)
  | identifier (name : String)
  | integer (value : Nat)
  | string (text : String)
deriving DecidableEq, Repr, Inhabited

namespace Lexeme

def lexemeClass : Lexeme → LexemeClass
  | keyword _ => .keyword
  | symbol _ => .symbol
  | identifier _ => .identifier
  | integer _ => .integer
  | string _ => .string

def describe : Lexeme → String
  | keyword word => s!"keyword '{word.text}'"
  | symbol s => s!"'{s.text}'"
  | identifier name => s!"identifier '{name}'"
  | integer value => s!"integer {value}"
  | string text => s!"string \"{text}\""

def inspect : Lexeme → String
  | keyword word => s!"Keyword({word.name})"
  | symbol s => s!"Symbol({s.name})"
  | identifier name => s!"Ident({Text.quoted name})"
  | integer value => s!"Int({value})"
  | string text => s!"Str({Text.quoted text})"

end Lexeme

/-- A lexeme and the piece of source it was read from. -/
structure Token where
  lexeme : Lexeme
  span : Span
deriving DecidableEq, Repr, Inhabited

end JackToVm
